import Mathlib.Order.WellFounded
import Disposal.Ownership.Visits
import Disposal.Proofs.Sketch
import Disposal.Proofs.Walk

/-!
# The set of visited symbols

All questions of a walk may share one set of the symbols that are being asked about, because each of them takes out
what it has put in. So none is answered otherwise than if it were asked first, and the walk is the one that tells every
question the symbols on the way to it.

* `Walk.along_answer`: one question, given that those it leads to leave the set as it is;
* `Walk.along_answerWithin`: the two walks give the same answers;
* `Walk.exists_asked_of_calls`, `Walk.acc_calls`: nothing leads from question to question without end;
* `Walk.answerWithin_keeps_visited`: the walk ends, with the set that it began with.
-/

namespace Disposal

private theorem Symbol.key?_eq_of_beq {a b : Symbol} {k : Nat × Node.Id} (hk : a.key? = some k) (h : (a == b) = true) :
    b.key? = some k := by
  cases a <;> cases b <;> first
    | rw [← hk, Symbol.key?, Symbol.key?, Node.beq_iff.1 h]
    | cases h
    | cases hk

namespace Ownership

/-- The symbols on a way, as a set. -/
def visitedOn (path : List Symbol) : Visited := (path.filterMap Symbol.key?).toFinset

private theorem visitedOn_cons {s : Symbol} {k : Nat × Node.Id} (hk : s.key? = some k) (path : List Symbol) :
    visitedOn (s :: path) = insert k (visitedOn path) := by
  rw [visitedOn, List.filterMap_cons_some hk, List.toFinset_cons]
  rfl

private theorem mem_visitedOn_iff {s : Symbol} {k : Nat × Node.Id} (hk : s.key? = some k) {path : List Symbol} :
    k ∈ visitedOn path ↔ path.contains s = true := by
  rw [visitedOn, List.mem_toFinset, List.mem_filterMap, List.contains_eq_any_beq, List.any_eq_true]
  constructor
  · rintro ⟨t, ht, htk⟩
    exact ⟨t, ht, Symbol.beq_of_key? hk htk⟩
  · rintro ⟨t, ht, heq⟩
    exact ⟨t, ht, Symbol.key?_eq_of_beq hk heq⟩

namespace Walk

/-! ### Parts of a walk that leave the set as it is -/

/-- With the symbols on a way in the set, a part of a walk gives a certain answer and leaves the set as it is. -/
def Along {α : Type} (path : List Symbol) (w : Walk α) (answer? : Option α) : Prop :=
  w (visitedOn path) = answer?.map fun v => (v, visitedOn path)

section

variable {α β : Type} {path : List Symbol}

theorem Along.pure (v : α) : Along path (Pure.pure v) (some v) := rfl

theorem Along.bind {w : Walk α} {a : Option α} (h : Along path w a) {f : α → Walk β} {g : α → Option β}
    (hf : ∀ v, Along path (f v) (g v)) : Along path (w >>= f) (a.bind g) := by
  show (w (visitedOn path)).bind (fun x => f x.1 x.2) = _
  rw [h]
  cases a with
  | none => rfl
  | some v => exact hf v

theorem Along.map {w : Walk α} {a : Option α} (h : Along path w a) (f : α → β) :
    Along path (w >>= fun v => Pure.pure (f v)) (a.map f) := by
  rw [Option.map_eq_bind]
  exact h.bind fun v => .pure (f v)

theorem Along.mapM {l : List α} {f : α → Walk β} {g : α → Option β} (h : ∀ x ∈ l, Along path (f x) (g x)) :
    Along path (l.mapM f) (l.mapM g) := by
  induction l with
  | nil => exact .pure []
  | cons x l ih =>
    rw [List.mapM_cons, List.mapM_cons]
    refine (h x List.mem_cons_self).bind fun v => ?_
    exact (ih fun y hy => h y (List.mem_cons_of_mem x hy)).bind fun vs => .pure (v :: vs)

/-- Inside a symbol that is not on the way the set holds one more symbol, and afterwards it is as before. -/
theorem Along.inside {s : Symbol} {k : Nat × Node.Id} (hk : s.key? = some k) {body : Walk Verdict}
    {a : Option Verdict} (h : path.contains s = false → Along (s :: path) body a) :
    Along path (inside k body) (if path.contains s then some none else a) := by
  have hmem : k ∈ visitedOn path ↔ path.contains s = true := mem_visitedOn_iff hk
  have henter (next : Bool → Walk Verdict) : (enter k >>= next) (visitedOn path) =
      next (k ∉ visitedOn path) (visitedOn (s :: path)) := by
    rw [visitedOn_cons hk]
    rfl
  rw [Along, Walk.inside, henter]
  cases hp : path.contains s with
  | true =>
    rw [decide_eq_false (not_not.2 (hmem.2 hp))]
    show some (none, visitedOn (s :: path)) = some (none, visitedOn path)
    rw [visitedOn_cons hk, Finset.insert_eq_of_mem (hmem.2 hp)]
  | false =>
    have hnew : k ∉ visitedOn path := fun hin => by rw [hmem.1 hin] at hp; cases hp
    have hleave : (visitedOn (s :: path)).erase k = visitedOn path := by
      rw [visitedOn_cons hk, Finset.erase_insert hnew]
    rw [decide_eq_true hnew]
    show (body (visitedOn (s :: path))).bind (fun x => some (x.1, x.2.erase k)) = _
    rw [h hp]
    cases a with
    | none => rfl
    | some v => exact congrArg (fun left => some (v, left)) hleave

end

/-! ### Answers that leave the set as it is -/

section

variable {m : Model} {path : List Symbol} {ask : Query → Walk Verdict} {ask' : Answers}

/-- Asked with the symbols on the way in the set, each of some questions gets its answer and leaves the set as it is. -/
def AlongAll (ask : Query → Walk Verdict) (ask' : Answers) (qs : List (List Symbol × Query)) : Prop :=
  ∀ x ∈ qs, Along x.1 (ask x.2) (ask' x.1 x.2)

private theorem along_ofPart {part? : Option Node} {use : Node}
    (h : AlongAll ask ask' (askedOf path part?.toList use)) :
    Along path (ofPart ask part? use) (Ownership.ofPart ask' path part? use) := by
  cases part? with
  | none => exact .pure _
  | some part => exact h (path, .value part use) (by simp [askedOf])

private theorem along_ofConversion {part? : Option Node} {use : Node}
    (h : AlongAll ask ask' (askedOf path part?.toList use)) :
    Along path (ofConversion ask part? use) (Ownership.ofConversion ask' path part? use) :=
  (along_ofPart h).map _

private theorem along_ofAny {parts : List Node} {use : Node} (h : AlongAll ask ask' (askedOf path parts use)) :
    Along path (ofAny ask parts use) (Ownership.ofAny ask' path parts use) := by
  refine (Along.mapM ?_).map together
  intro part hpart
  exact h (path, .value part use) (List.mem_map_of_mem hpart)

private theorem along_ofReturns {method : Node} (h : AlongAll ask ask' (asked m path (.returns method))) :
    Along path (ofReturns m ask method) (Ownership.ofReturns m ask' path method) := by
  refine Along.inside (s := .method method) rfl ?_
  intro hnew
  rw [asked, hnew] at h
  cases hr : method.returnedExpressions with
  | nil => exact .pure _
  | cons e es =>
    rw [hr] at h
    refine (Along.mapM ?_).map together
    intro r hmem
    unfold ofReturned
    cases hm : returnsMember m r with
    | true => exact .pure _
    | false =>
      refine h (.method method :: path, .value r r) (List.mem_map.2 ⟨r, ?_, rfl⟩)
      exact List.mem_filter.2 ⟨hmem, by rw [hm]; rfl⟩

private theorem along_ofLocal {decl use : Node} (h : AlongAll ask ask' (askedByLocal m path decl use)) :
    Along path (ofLocal m ask decl use) (Ownership.ofLocal m ask' path decl use) := by
  unfold askedByLocal at h
  unfold ofLocal Ownership.ofLocal
  cases hi : decl.is .identifier with
  | true => exact .pure _
  | false =>
    rw [hi] at h
    cases hr : decl.region? with
    | none => exact .pure _
    | some region =>
      rw [hr] at h
      dsimp only at h ⊢
      cases hl : use.inNestedLambda region with
      | true => exact .pure _
      | false =>
        refine Along.inside (s := .localVar decl) rfl ?_
        intro hnew
        rw [hl, hnew] at h
        refine (Along.mapM ?_).map together
        intro w hw
        unfold ofWrite
        cases hv : w.value? with
        | none => exact .pure _
        | some v =>
          refine h (.localVar decl :: path, .value v w.node) (List.mem_filterMap.2 ⟨w, hw, ?_⟩)
          rw [hv]
          rfl

private theorem along_ofSymbol {e use : Node} (h : AlongAll ask ask' (askedByName m path e use)) :
    Along path (ofSymbol m ask e use) (Ownership.ofSymbol m ask' path e use) := by
  unfold askedByName at h
  unfold ofSymbol Ownership.ofSymbol
  cases hs : m.symbol? e with
  | none => exact .pure _
  | some s =>
    rw [hs] at h
    cases s with
    | localVar decl => exact along_ofLocal h
    | property p =>
      dsimp only at h ⊢
      cases hst : (Symbol.property p).isStatic with
      | true => exact .pure _
      | false =>
        cases hstored : p.isStored with
        | true => exact .pure _
        | false =>
          rw [hst, hstored] at h
          exact (h (path, .returns p.getterBody) (List.mem_singleton_self _)).map _
    | _ => exact .pure _

private theorem along_ofMethod {call : Node} (h : AlongAll ask ask' (askedByMethod m path call)) :
    Along path (ofMethod m ask call) (Ownership.ofMethod m ask' path call) := by
  unfold askedByMethod at h
  unfold ofMethod Ownership.ofMethod
  cases hs : m.symbol? call with
  | none => exact .pure _
  | some s =>
    rw [hs] at h
    cases s with
    | method method => exact h (path, .returns method) (List.mem_singleton_self _)
    | _ => exact .pure _

private theorem along_ofCall {call use : Node} (h : AlongAll ask ask' (askedByCall m path call use)) :
    Along path (ofCall m ask call use) (Ownership.ofCall m ask' path call use) := by
  unfold askedByCall at h
  unfold ofCall Ownership.ofCall
  cases hi : call.invoked? with
  | none => exact .pure _
  | some call' =>
    obtain ⟨name, receiver?⟩ := call'
    rw [hi] at h
    cases receiver? with
    | none => exact along_ofMethod h
    | some receiver =>
      dsimp only [Option.bind_some] at h ⊢
      unfold ofReceiver Ownership.ofReceiver
      split at h
      · next hn =>
        rw [if_pos hn, if_pos hn]
        exact h (path, .value receiver use) (List.mem_singleton_self _)
      · next hn =>
        rw [if_neg hn, if_neg hn]
        split at h
        · next hp =>
          rw [if_pos hp, if_pos hp]
          exact .pure _
        · next hp =>
          rw [if_neg hp, if_neg hp]
          unfold buildsTuple at h
          split at h
          · next ht =>
            rw [if_pos ht, if_pos ht]
            exact along_ofAny h
          · next ht =>
            rw [if_neg ht, if_neg ht]
            cases hf : m.frameworkCall? call with
            | some known => exact .pure _
            | none =>
              rw [hf] at h
              exact along_ofMethod h

private theorem along_ofAccess {access use : Node}
    (h : AlongAll ask ask'
      ((if access.isUnwrapping then askedOf path access.memberReceiver?.toList use else []) ++
        askedByName m path access use)) :
    Along path (ofAccess m ask access use) (Ownership.ofAccess m ask' path access use) := by
  have hname : Along path (ofSymbol m ask access use) (Ownership.ofSymbol m ask' path access use) :=
    along_ofSymbol fun x hx => h x (List.mem_append_right _ hx)
  unfold ofAccess Ownership.ofAccess
  cases access.memberName?.isNone with
  | true => exact .pure _
  | false =>
    cases hu : access.isUnwrapping with
    | false => exact hname
    | true =>
      rw [if_pos hu] at h
      cases hr : access.memberReceiver? with
      | none => exact .pure _
      | some receiver =>
        rw [hr] at h
        have hreceiver : Along path (ask (.value receiver use)) (ask' path (.value receiver use)) :=
          h (path, .value receiver use) (List.mem_append_left _ (by simp [askedOf]))
        simp only [Bool.false_eq_true, ↓reduceIte]
        show (ask (.value receiver use) (visitedOn path)).bind _ = _
        rw [hreceiver]
        cases ask' path (.value receiver use) with
        | none => rfl
        | some v =>
          cases v with
          | none => exact hname
          | some o => rfl

private theorem along_ofOperation {e use : Node} (h : AlongAll ask ask' (askedByOperation path e use)) :
    Along path (ofOperation ask e use) (Ownership.ofOperation ask' path e use) := by
  unfold askedByOperation at h
  unfold ofOperation
  split
  · next ho =>
    simp only [ho] at h
    simp only [Ownership.ofOperation, ho]
    exact along_ofConversion h
  · next ho =>
    simp only [ho] at h
    simp only [Ownership.ofOperation, ho]
    exact along_ofAny h
  · have hnone : Ownership.ofOperation ask' path e use = some none := by
      unfold Ownership.ofOperation
      -- no other operator is left
      split <;> first | contradiction | rfl
    rw [hnone]
    exact .pure _

private theorem along_ofExpression {expr use : Node}
    (h : AlongAll ask ask' (askedByExpression m path expr.stripParens use)) :
    Along path (ofExpression m ask expr use) (Ownership.ofExpression m ask' path expr use) := by
  unfold askedByExpression at h
  unfold ofExpression
  dsimp only
  split
  case h_3 hk | h_4 hk =>
    simp only [hk] at h
    simp only [Ownership.ofExpression, hk]
    exact along_ofConversion h
  case h_5 hk =>
    simp only [hk] at h
    simp only [Ownership.ofExpression, hk]
    exact along_ofOperation h
  case h_6 hk | h_7 hk | h_10 hk =>
    simp only [hk] at h
    simp only [Ownership.ofExpression, hk]
    exact along_ofPart h
  case h_8 hk | h_9 hk | h_12 hk =>
    simp only [hk] at h
    simp only [Ownership.ofExpression, hk]
    exact along_ofAny h
  case h_13 hk =>
    simp only [hk] at h
    simp only [Ownership.ofExpression, hk]
    exact along_ofCall h
  case h_14 hk =>
    simp only [hk] at h
    simp only [Ownership.ofExpression, hk]
    exact along_ofAccess h
  case h_15 hk | h_16 hk | h_17 hk | h_18 hk =>
    simp only [hk] at h
    simp only [Ownership.ofExpression, hk]
    exact along_ofSymbol h
  case h_1 hk | h_2 hk | h_11 hk | h_19 hk | h_20 hk =>
    simp only [Ownership.ofExpression, hk]
    exact .pure _
  case h_21 =>
    have hnone : Ownership.ofExpression m ask' path expr use = some none := by
      unfold Ownership.ofExpression
      dsimp only
      -- no other kind is left
      split <;> first | contradiction | rfl
    rw [hnone]
    exact .pure _

/-- One question gets the answer that it gets on the way, provided that those it leads to do. -/
theorem along_answer {q : Query} (h : AlongAll ask ask' (asked m path q)) :
    Along path (answer m ask q) (Ownership.answer m ask' path q) := by
  cases q with
  | value expr use => exact along_ofExpression h
  | returns method => exact along_ofReturns h

end

/-- With the symbols on the way in the set, a question gets the answer that it gets on the way. -/
theorem along_answerWithin (m : Model) (depth : Nat) (path : List Symbol) (q : Query) :
    Along path (answerWithin m depth q) (Ownership.answerWithin m depth path q) := by
  induction depth generalizing path q with
  | zero => rfl
  | succ depth ih => exact along_answer fun x _ => ih x.1 x.2

/-! ### Calls -/

/-- Whether a question, asked with some symbols in the set, can lead to another one with others in it: there are answers
to all other questions, each leaving the set as it is, with which the first is not answered. -/
def Calls (m : Model) (x y : Visited × Query) : Prop :=
  ∃ ask : Query → Walk Verdict, (∀ z ≠ y, ∃ v, ask z.2 z.1 = some (v, z.1)) ∧ answer m ask x.2 x.1 = none

theorem exists_asked_of_calls {m : Model} {path : List Symbol} {q : Query} {y : Visited × Query}
    (h : Calls m (visitedOn path, q) y) : ∃ x ∈ asked m path q, y = (visitedOn x.1, x.2) := by
  obtain ⟨ask, hask, hnone⟩ := h
  by_contra hno
  let ask' : Answers := fun path q => (ask q (visitedOn path)).map Prod.fst
  have hanswered : ∀ x ∈ asked m path q, ∃ v, ask x.2 (visitedOn x.1) = some (v, visitedOn x.1) :=
    fun x hx => hask (visitedOn x.1, x.2) fun heq => hno ⟨x, hx, heq.symm⟩
  have halong : AlongAll ask ask' (asked m path q) := by
    intro x hx
    obtain ⟨v, hv⟩ := hanswered x hx
    show ask x.2 (visitedOn x.1) = ((ask x.2 (visitedOn x.1)).map Prod.fst).map _
    rw [hv]
    rfl
  have hsettled : SettledOn ask' ask' (asked m path q) := by
    intro x hx
    obtain ⟨v, hv⟩ := hanswered x hx
    have hv' : ask' x.1 x.2 = some v := by
      show (ask x.2 (visitedOn x.1)).map Prod.fst = _
      rw [hv]
      rfl
    exact ⟨v, hv', hv'⟩
  obtain ⟨v, hv, -⟩ := settled_answer hsettled
  have hsome := along_answer halong
  rw [hv] at hsome
  exact absurd (hnone.symm.trans hsome) nofun

theorem acc_calls {c : Compilation} (hc : c.IsRead) {path : List Symbol} (hpath : IsTrail c path) {q : Query}
    (hq : q.IsIn c) : Acc (fun y x => Calls c.model x y) (visitedOn path, q) := by
  induction hw : weight c path q using Nat.strong_induction_on generalizing path q with
  | _ w ih =>
    refine ⟨_, fun y hy => ?_⟩
    obtain ⟨x, hx, rfl⟩ := exists_asked_of_calls hy
    have hlight := lighter_of_mem_asked hpath hc hq hx
    exact ih _ (hw ▸ hlight.weight_lt) hlight.isTrail hlight.isIn rfl

/-! ### Sets of symbols -/

/-- The set holds symbols that are declared at places of the compilation. -/
def IsSetOf (c : Compilation) (visited : Visited) : Prop :=
  ∀ k ∈ visited, ∃ s : Symbol, s.IsIn c ∧ s.key? = some k

private theorem exists_isTrail {c : Compilation} {visited : Visited} (h : IsSetOf c visited) :
    ∃ path, IsTrail c path ∧ visitedOn path = visited := by
  induction visited using Finset.induction_on with
  | empty => exact ⟨[], .nil c, rfl⟩
  | insert k visited hk ih =>
    obtain ⟨path, hpath, rfl⟩ := ih fun k' hk' => h k' (Finset.mem_insert_of_mem hk')
    obtain ⟨s, hs, hkey⟩ := h k (Finset.mem_insert_self k _)
    have hnew : path.contains s = false := by
      rw [← Bool.not_eq_true, ← mem_visitedOn_iff hkey]
      exact hk
    have hnode : ∃ n, s.node? = some n := by cases s <;> first | exact ⟨_, rfl⟩ | cases hkey
    obtain ⟨n, hn⟩ := hnode
    exact ⟨s :: path, hpath.cons hn hs hnew, visitedOn_cons hkey path⟩

private theorem weight_lt_limit {c : Compilation} {q : Query} (hq : q.IsIn c) (path : List Symbol) :
    weight c path q < c.model.limit := by
  have hroom : (6 * c.size - path.length) * (c.size + 1) ≤ (6 * c.size - ([] : List Symbol).length) * (c.size + 1) :=
    Nat.mul_le_mul_right _ (Nat.sub_le_sub_left (Nat.zero_le _) _)
  cases q with
  | value expr use =>
    exact Nat.lt_of_le_of_lt (Nat.add_le_add_right hroom _) (c.room_lt_limit (Compilation.HasPlace.rank_le hq))
  | returns method => exact Nat.lt_of_le_of_lt hroom (c.room_lt_limit (Nat.zero_le _))

/-- Whatever symbols of a program are in the set, no question leads from one to another without end. Each gets a
verdict, which a higher limit would not change, and leaves the set as it is, so that questions asked one after the other
get the verdicts that each would get alone; with nothing in the set these are the verdicts on expressions and
methods. -/
theorem answerWithin_keeps_visited (documents : List Document) {visited : Visited}
    (hvisited : IsSetOf (Compilation.ofDocuments documents) visited) :
    let c := Compilation.ofDocuments documents
    (∀ q, q.IsIn c → ¬∃ chain : Nat → Visited × Query, chain 0 = (visited, q) ∧
      ∀ n, Calls c.model (chain n) (chain (n + 1))) ∧
    ∃ verdict : Query → Verdict,
      (∀ depth, c.model.limit ≤ depth → ∀ q, q.IsIn c →
        answerWithin c.model depth q visited = some (verdict q, visited)) ∧
      (∀ depth, c.model.limit ≤ depth → ∀ qs : List Query, (∀ q ∈ qs, q.IsIn c) →
        (qs.mapM (answerWithin c.model depth)) visited = some (qs.map verdict, visited)) ∧
      (visited = ∅ → (∀ e, c.HasPlace e → verdict (.value e e) = c.model.classify? e) ∧
        ∀ method, c.HasPlace method → verdict (.returns method) = c.model.classifyReturns? method) := by
  intro c
  have hc : c.IsRead := Compilation.isRead_ofDocuments documents
  obtain ⟨path, hpath, rfl⟩ := exists_isTrail hvisited
  let verdict : Query → Verdict := fun q => (Ownership.answerWithin c.model c.model.limit path q).join
  have hverdict : ∀ depth, c.model.limit ≤ depth → ∀ q, q.IsIn c →
      Along path (answerWithin c.model depth q) (some (verdict q)) := by
    intro depth hdepth q hq
    obtain ⟨v, hv, hv'⟩ := settled_answerWithin hpath hc hq (weight_lt_limit hq path) hdepth
    have halong := along_answerWithin c.model depth path q
    rw [hv'] at halong
    rwa [show verdict q = v from congrArg Option.join hv]
  refine ⟨?_, verdict, hverdict, ?_, ?_⟩
  · intro q hq hchain
    exact not_acc_iff_exists_descending_chain.2 hchain (acc_calls hc hpath hq)
  · intro depth hdepth qs hqs
    have halong : Along path (qs.mapM (answerWithin c.model depth)) (qs.mapM fun q => some (verdict q)) :=
      .mapM fun q hq => hverdict depth hdepth q (hqs q hq)
    rw [show (qs.mapM fun q => some (verdict q)) = some (qs.map verdict) from List.mapM_pure] at halong
    exact halong
  · intro hempty
    -- the set is that of the empty way, too
    have hsame : ∀ q, verdict q = (Ownership.answerWithin c.model c.model.limit [] q).join := by
      intro q
      have h := along_answerWithin c.model c.model.limit path q
      rw [Along, hempty] at h
      have h' : answerWithin c.model c.model.limit q ∅ = _ := along_answerWithin c.model c.model.limit [] q
      exact congrArg Option.join (Option.map_injective (fun _ _ heq => congrArg Prod.fst heq) (h.symm.trans h'))
    exact ⟨fun e _ => hsame _, fun method _ => hsame _⟩

namespace Sample

open Sketch

/-- `class C{Stream F(Stream p){Stream a=p;a=(Stream)a;return x?F(a):a;}}` -/
def recursive : Document :=
  document "C.cs"
    [classOf "C"
      [method [] (name "Stream") "F" [parameterOf "Stream" "p"]
        [declare "Stream" "a" (name "p"), assign (name "a") (castTo "Stream" (name "a")),
         returning (conditional (name "x") (call (name "F") [name "a"]) (name "a"))]]]

end Sample

/-- A method that calls itself, asked about with itself in the set and without. -/
theorem answerWithin_keeps_visited_recursive :
    let c := Compilation.ofDocuments [Sample.recursive]
    ∃ f, c.HasPlace f ∧ f.nameText? = some "F" ∧ IsSetOf c {(5, f.id)} ∧
      (∃ v, answerWithin c.model c.model.limit (.returns f) {(5, f.id)} = some (v, {(5, f.id)})) ∧
      answerWithin c.model c.model.limit (.returns f) ∅ = some (some .injected, ∅) := by
  intro c
  have hany : (c.places.any fun f =>
      f.nameText? == some "F" && c.model.classifyReturns? f == some .injected) = true := by decide +kernel
  obtain ⟨f, hplace, hf⟩ := List.any_eq_true.1 hany
  simp only [Bool.and_eq_true, beq_iff_eq] at hf
  have hplace : c.HasPlace f := Compilation.mem_places_iff.1 hplace
  have hset : IsSetOf c {(5, f.id)} := by
    intro k hk
    rw [Finset.mem_singleton.1 hk]
    exact ⟨.method f, Symbol.isIn_of_eq rfl hplace, rfl⟩
  have hempty : IsSetOf c ∅ := fun k hk => absurd hk (Finset.notMem_empty k)
  obtain ⟨-, v, hv, -⟩ := answerWithin_keeps_visited [Sample.recursive] hset
  obtain ⟨-, v', hv', -, hverdict⟩ := answerWithin_keeps_visited [Sample.recursive] hempty
  have hfirst := hv' _ (Nat.le_refl _) (.returns f) hplace
  rw [(hverdict rfl).2 f hplace, hf.2] at hfirst
  exact ⟨f, hplace, hf.1, hset, ⟨_, hv _ (Nat.le_refl _) (.returns f) hplace⟩, hfirst⟩

end Walk

end Ownership

end Disposal
