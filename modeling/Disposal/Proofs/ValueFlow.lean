import Disposal.Proofs.Agreement
import Disposal.Proofs.Sketch
import Disposal.Rule.CreatedLocal
import Disposal.Rule.ForeignValue
import Disposal.Rule.IgnoredValue
import Disposal.Rule.Reassignment

/-!
# The flow of a value

The walk that looks for the owner of a value comes to the expressions that the value can come from: branches, operands
of conversions, results of methods and getters, values of locals. If none of them is out of the ordinary, a value
without another owner is not taken for shared, so that no rule asks to dispose what another forbids to dispose.

* `Ownership.isPlainWalk_of_meets`: what holds of every question that a walk comes to holds along the walk, which ends;
* `Model.mayBeShared_of_classify`: the owner of a value and the evidence that it is shared;
* `Model.exists_created_and_shared`: both exclusions of `Query.isRegular` are needed.
-/

namespace Disposal

namespace Ownership

/-- The walk from one question comes to another, each with the symbols on the way to it. -/
inductive Meets (m : Model) : List Symbol × Query → List Symbol × Query → Prop
  | self (x : List Symbol × Query) : Meets m x x
  | step {x y z : List Symbol × Query} (hy : y ∈ asked m x.1 x.2) (h : Meets m y z) : Meets m x z

/-! ### Ordinary expressions -/

/-- The kinds of expression whose value is that of a name. -/
def nameKinds : List Kind :=
  [.memberAccessExpression, .identifier, .genericName, .memberBindingExpression, .conditionalAccessExpression]

/-- The writes of a local in its region. -/
def localWrites (m : Model) (decl : Node) : List Write :=
  (decl.region?.map fun region => m.writes (.localVar decl) (.node region)).getD []

/-- Whether an expression is no element binding, reads no local that is written after its initializer, and reads no
property that has both accessors with bodies and an initializer. -/
def isSimpleExpression (m : Model) (e : Node) : Bool :=
  !e.is .elementBindingExpression &&
    (!e.isAny nameKinds ||
      match m.symbol? e with
      | some (.localVar decl) => (localWrites m decl).all (·.kind == .initializer)
      | some (.property p) => !(p.accessors.any (·.body?.isSome) && p.initializer?.isSome)
      | _ => true)

/-- Whether an expression is put together as the grammar prescribes, a local is not read ahead of its initializer, and
`Tuple.Create` is not a method of the compilation. -/
def isRegularExpression (m : Model) (e use : Node) : Bool :=
  match e.kind? with
  | some .binaryExpression => e.binaryOperator? != some "??" || e.named.length ≤ 2
  | some .invocationExpression => isPlainCall m e
  | _ =>
    !e.isAny nameKinds ||
      match m.symbol? e with
      | some (.localVar decl) => (localWrites m decl).all fun w => (Order.executedBefore w.node use).isPossible
      | some (.property p) => p.arrowBody?.isNone || p.initializer?.isNone
      | _ => true

def Query.isSimple (m : Model) : Query → Bool
  | .value expr _ => isSimpleExpression m expr.stripParens
  | .returns _ => true

def Query.isRegular (m : Model) : Query → Bool
  | .value expr use => isRegularExpression m expr.stripParens use
  | .returns _ => true

private theorem isPlainLocal_of_localWrites {m : Model} {decl use : Node}
    (h : (localWrites m decl).all (fun w => (Order.executedBefore w.node use).isPossible) = true) :
    isPlainLocal m decl use = true := by
  unfold isPlainLocal
  unfold localWrites at h
  cases hr : decl.region? with
  | none => rfl
  | some region =>
    rw [hr] at h
    simp only [Option.map_some, Option.getD_some, List.all_eq_true] at h
    simp only [Option.all_some, List.all_eq_true, Bool.or_eq_true]
    intro w hw
    exact Or.inr (h w hw)

/-- A property whose value is not stored has a body. -/
private theorem isStored_of_bodies {p : Node} (ha : p.accessors.any (·.body?.isSome) = false)
    (hb : p.arrowBody?.isNone = true) : p.isStored = true := by
  unfold Node.isStored Node.isAutoProperty
  rw [hb]
  cases he : p.accessors.isEmpty with
  | true => simp
  | false =>
    have hall : p.accessors.all (fun a => a.body?.isNone) = true := by
      rw [List.all_eq_true]
      rw [List.any_eq_false] at ha
      intro a hmem
      simpa using ha a hmem
    simp [hall]

private theorem isPlainName_of_simple {m : Model} {e use : Node} {k : Kind} (he : e.kind? = some k) (hk : k ∈ nameKinds)
    (hs : isSimpleExpression m e = true) (hr : isRegularExpression m e use = true) : isPlainName m e use = true := by
  have hname : e.isAny nameKinds = true := Node.isAny_iff.2 ⟨k, hk, he⟩
  unfold isSimpleExpression at hs
  rw [Bool.and_eq_true, hname, Bool.not_true, Bool.false_or] at hs
  unfold isRegularExpression at hr
  rw [he, hname, Bool.not_true, Bool.false_or] at hr
  simp only [nameKinds, List.mem_cons, List.not_mem_nil, or_false] at hk
  unfold isPlainName
  cases hsym : m.symbol? e with
  | none => rfl
  | some s =>
    rw [hsym] at hs hr
    cases s with
    | localVar decl =>
      refine isPlainLocal_of_localWrites ?_
      rcases hk with rfl | rfl | rfl | rfl | rfl <;> exact hr
    | property p =>
      have harrow : (p.arrowBody?.isNone || p.initializer?.isNone) = true := by
        rcases hk with rfl | rfl | rfl | rfl | rfl <;> exact hr
      have hbodies : (!(p.accessors.any (·.body?.isSome) && p.initializer?.isSome)) = true := hs.2
      show (p.isStored || p.initializer?.isNone) = true
      cases hi : p.initializer? with
      | none => exact Bool.or_true _
      | some v =>
        rw [hi, Option.isNone_some, Bool.or_false] at harrow
        rw [hi, Option.isSome_some, Bool.and_true, Bool.not_eq_true'] at hbodies
        rw [isStored_of_bodies hbodies harrow]
        rfl
    | _ => rfl

private theorem isPlain_of_simple {m : Model} {q : Query} (hs : q.isSimple m = true) (hr : q.isRegular m = true) :
    q.isPlain m = true := by
  cases q with
  | returns => rfl
  | value expr use =>
    have hs : isSimpleExpression m expr.stripParens = true := hs
    have hr : isRegularExpression m expr.stripParens use = true := hr
    show isPlainExpression m expr.stripParens use = true
    generalize expr.stripParens = e at hs hr
    unfold isPlainExpression
    split
    case h_1 hk =>
      rw [isSimpleExpression, Node.is_eq_of_kind? hk] at hs
      cases hs
    case h_2 hk | h_3 hk =>
      rw [isRegularExpression, hk] at hr
      exact hr
    case h_4 hk | h_5 hk | h_6 hk | h_7 hk | h_8 hk => exact isPlainName_of_simple hk (by decide) hs hr
    case h_9 => rfl

/-! ### Along the walk -/

/-- A walk over plain questions is plain. It comes to an end since each question weighs less than the one before. -/
theorem isPlainWalk_of_meets {c : Compilation} (hc : c.IsRead) {path : List Symbol} {q : Query} (hpath : IsTrail c path)
    (hq : q.IsIn c) (h : ∀ x, Meets c.model (path, q) x → x.2.isPlain c.model = true) :
    IsPlainWalk c.model path q := by
  generalize hw : weight c path q = w
  induction w using Nat.strongRecOn generalizing path q with
  | _ w ih =>
    refine ⟨h _ (.self _), fun x hx => ?_⟩
    have hlight := lighter_of_mem_asked hpath hc hq hx
    exact ih _ (hw ▸ hlight.weight_lt) hlight.isTrail hlight.isIn (fun y hy => h y (.step hx hy)) rfl

/-- Whether a property holds of all questions that a walk comes to, when there are at most so many nested ones. -/
def allWithin (m : Model) (p : Query → Bool) : Nat → List Symbol → Query → Bool
  | 0, _, _ => false
  | depth + 1, path, q => p q && (asked m path q).all fun x => allWithin m p depth x.1 x.2

private theorem of_allWithin {m : Model} {p : Query → Bool} {depth : Nat} {x y : List Symbol × Query}
    (h : allWithin m p depth x.1 x.2 = true) (hxy : Meets m x y) : p y.2 = true := by
  induction hxy generalizing depth with
  | self x =>
    cases depth with
    | zero => cases h
    | succ depth =>
      rw [allWithin, Bool.and_eq_true] at h
      exact h.1
  | step hy _ ih =>
    cases depth with
    | zero => cases h
    | succ depth =>
      rw [allWithin, Bool.and_eq_true, List.all_eq_true] at h
      exact ih (h.2 _ hy)

end Ownership

/-! ### Rules -/

namespace ForeignValue

/-- The values that a node disposes. -/
def disposedBy (n : Node) : List Node :=
  match n.kind? with
  | some .usingStatement => (resource? n).toList.flatMap resourceValues
  | some .localDeclarationStatement => declaredResources n
  | some .invocationExpression => n.disposeReceiver?.toList
  | _ => []

private theorem exists_shared_of_reportIfShared {m : Model} {values : List Node} {n : Node} {r : Report}
    {rs : List Report} (h : reportIfShared m values n = some (r :: rs)) :
    ∃ v ∈ values, m.mayBeShared v = some true := by
  obtain ⟨b, hb, hreport⟩ := Option.map_eq_some_iff.1 h
  cases b with
  | false => cases hreport
  | true => exact Questions.exists_of_anyM_eq_true hb

private theorem exists_shared_of_check {m : Model} {n : Node} {r : Report} {rs : List Report}
    (h : check m n = some (r :: rs)) : ∃ v ∈ disposedBy n, m.mayBeShared v = some true := by
  unfold check at h
  split at h
  · next hk =>
    rw [disposedBy, hk]
    split at h
    · next resource hr =>
      obtain ⟨v, hv, hshared⟩ := exists_shared_of_reportIfShared h
      exact ⟨v, by simpa [hr] using hv, hshared⟩
    · cases h
  · next hk =>
    rw [disposedBy, hk]
    split at h
    · exact exists_shared_of_reportIfShared h
    · cases h
  · next hk =>
    rw [disposedBy, hk]
    split at h
    · next receiver hr =>
      split at h
      · cases h
      · simpa [hr] using exists_shared_of_reportIfShared h
    · cases h
  · cases h

end ForeignValue

namespace Model

/-- A rule on created values reports because of the value of an expression: the value of a local is never disposed, an
assignment loses the value before it, or a statement ignores the value. -/
def IsReportedCreated (m : Model) (e : Node) : Prop :=
  (∃ region s, CreatedLocal.isLeaked m region e s = true) ∨
    (∃ n s, Reassignment.losesValue m n e s = true) ∨
      ∃ n, n.firstNamed? = some e ∧ IgnoredValue.check m n ≠ []

/-- The rule on foreign values reports because the value of an expression is disposed. -/
def IsReportedForeign (m : Model) (e : Node) : Prop :=
  ∃ n, ForeignValue.disposedBy n = [e] ∧ ∃ r rs, ForeignValue.check m n = some (r :: rs)

private theorem classify?_of_isReportedCreated {m : Model} {e : Node} (h : m.IsReportedCreated e) :
    m.classify? e = some .created := by
  rcases h with ⟨region, s, h⟩ | ⟨n, s, h⟩ | ⟨n, hn, h⟩
  · simp only [CreatedLocal.isLeaked, Bool.and_eq_true, beq_iff_eq] at h
    exact h.1.1.2
  · simp only [Reassignment.losesValue, Bool.and_eq_true, beq_iff_eq] at h
    exact h.1.1.1.1.2
  · unfold IgnoredValue.check at h
    rw [hn] at h
    dsimp only at h
    split at h
    · next hc =>
      simp only [Bool.and_eq_true, beq_iff_eq] at hc
      exact hc.1.2
    · exact absurd rfl h

private theorem mayBeShared_of_isReportedForeign {m : Model} {e : Node} (h : m.IsReportedForeign e) :
    m.mayBeShared e = some true := by
  obtain ⟨n, hn, r, rs, h⟩ := h
  obtain ⟨v, hv, hshared⟩ := ForeignValue.exists_shared_of_check h
  rw [hn] at hv
  rwa [List.mem_singleton.1 hv] at hshared

/-- The walk for shared values comes to an end at a value that is created, or of which nothing is known, and does not
take it for shared, if its flow is simple and regular; so no rule on created values and the rule on foreign values both
report because of it. -/
theorem mayBeShared_of_classify (documents : List Document) {e : Node}
    (hplace : (Compilation.ofDocuments documents).HasPlace e)
    (hsimple : ∀ x, Ownership.Meets (Compilation.ofDocuments documents).model ([], .value e e) x →
      x.2.isSimple (Compilation.ofDocuments documents).model = true)
    (hregular : ∀ x, Ownership.Meets (Compilation.ofDocuments documents).model ([], .value e e) x →
      x.2.isRegular (Compilation.ofDocuments documents).model = true) :
    ((Compilation.ofDocuments documents).model.classify? e = some .created ∨
        (Compilation.ofDocuments documents).model.classify? e = none →
      (Compilation.ofDocuments documents).model.mayBeShared e = some false) ∧
    ¬((Compilation.ofDocuments documents).model.IsReportedCreated e ∧
      (Compilation.ofDocuments documents).model.IsReportedForeign e) := by
  have hc := Compilation.isRead_ofDocuments documents
  generalize Compilation.ofDocuments documents = c at *
  have hwalk : Ownership.IsPlainWalk c.model [] (.value e e) :=
    Ownership.isPlainWalk_of_meets hc (.nil c) hplace
      fun x hx => Ownership.isPlain_of_simple (hsimple x hx) (hregular x hx)
  have key : c.model.classify? e = some .created ∨ c.model.classify? e = none →
      c.model.mayBeShared e = some false := by
    intro hclass
    obtain ⟨depth, hnot⟩ :=
      Ownership.notShared_of_answerWithin hwalk (Ownership.answerWithin_limit hc hplace) hclass.symm nofun
    exact Sharing.mayBeShared_of_answerWithin hc hplace hnot
  refine ⟨key, fun ⟨hcreated, hforeign⟩ => ?_⟩
  have hshared := mayBeShared_of_isReportedForeign hforeign
  rw [key (Or.inl (classify?_of_isReportedCreated hcreated))] at hshared
  cases hshared

namespace Sample

open Sketch

/-- `class C{Stream F(){if(x)return new MemoryStream();return G();}Stream G(){return F();}void M(){Stream s=F();…}}` -/
def recurring : Document :=
  document "C.cs"
    [classOf "C"
      [method [] (name "Stream") "F" []
        [choose (name "x") (returning (create "MemoryStream")), returning (call (name "G") [])],
       method [] (name "Stream") "G" [] [returning (call (name "F") [])],
       method [] void "M" []
        [declare "Stream" "s" (call (name "F") []), statement (call (access (name "s") "Dispose") [])]]]

/-- `class C{void M(){Tuple.Create(new MemoryStream()).Dispose();}}`, where `Tuple.Create` hands out what it gets. -/
def relaying : Document :=
  document "C.cs"
    [classOf "C"
      [method [] void "M" []
        [statement (call (access (call (access (name "Tuple") "Create") [create "MemoryStream"]) "Dispose") [])]],
     classOf "Tuple"
       [method ["static"] (name "Stream") "Create" [parameterOf "Stream" "x"] [returning (name "x")]]]

/-- `class C{void M(Stream p){Stream b=a,a=p;b.Dispose();}}`, where `a` is read ahead of its initializer. -/
def leading : Document :=
  document "C.cs"
    [classOf "C"
      [method [] void "M" [parameterOf "Stream" "p"]
        [declareTwo "Stream" "b" (name "a") "a" (name "p"), statement (call (access (name "b") "Dispose") [])]]]

end Sample

/-- The theorem for a local that is set from methods that call each other. -/
theorem mayBeShared_of_classify_recurring :
    ∃ e, (Compilation.ofDocuments [Sample.recurring]).HasPlace e ∧ e.text = "s" ∧
      (Compilation.ofDocuments [Sample.recurring]).model.classify? e = some .created ∧
      (Compilation.ofDocuments [Sample.recurring]).model.mayBeShared e = some false := by
  have hany : ((Compilation.ofDocuments [Sample.recurring]).places.any fun e =>
      e.text == "s" && (Compilation.ofDocuments [Sample.recurring]).model.classify? e == some .created &&
        Ownership.allWithin (Compilation.ofDocuments [Sample.recurring]).model
          (Ownership.Query.isSimple (Compilation.ofDocuments [Sample.recurring]).model) 9 [] (.value e e) &&
        Ownership.allWithin (Compilation.ofDocuments [Sample.recurring]).model
          (Ownership.Query.isRegular (Compilation.ofDocuments [Sample.recurring]).model) 9 [] (.value e e)) = true := by
    decide +kernel
  obtain ⟨e, hplace, h⟩ := List.any_eq_true.1 hany
  simp only [Bool.and_eq_true, beq_iff_eq] at h
  obtain ⟨⟨⟨htext, hclass⟩, hsimple⟩, hregular⟩ := h
  have hplace := Compilation.mem_places_iff.1 hplace
  have htheorem := mayBeShared_of_classify [Sample.recurring] hplace
    (fun x hx => Ownership.of_allWithin hsimple hx) (fun x hx => Ownership.of_allWithin hregular hx)
  exact ⟨e, hplace, htext, hclass, htheorem.1 (Or.inl hclass)⟩

/-- A value with a simple flow has no other owner and is taken for shared. -/
def HasSharedCreation (c : Compilation) : Prop :=
  ∃ e, c.HasPlace e ∧ (∀ x, Ownership.Meets c.model ([], .value e e) x → x.2.isSimple c.model = true) ∧
    (c.model.classify? e = some .created ∨ c.model.classify? e = none) ∧ c.model.mayBeShared e = some true

private theorem hasSharedCreation_of_any {c : Compilation} (depth : Nat)
    (h : (c.places.any fun e =>
      Ownership.allWithin c.model (Ownership.Query.isSimple c.model) depth [] (.value e e) &&
        (c.model.classify? e == some .created || c.model.classify? e == none) &&
          c.model.mayBeShared e == some true) = true) :
    HasSharedCreation c := by
  obtain ⟨e, hplace, h⟩ := List.any_eq_true.1 h
  simp only [Bool.and_eq_true, Bool.or_eq_true, beq_iff_eq] at h
  obtain ⟨⟨hsimple, hclass⟩, hshared⟩ := h
  exact ⟨e, Compilation.mem_places_iff.1 hplace, fun x hx => Ownership.of_allWithin hsimple hx, hclass, hshared⟩

/-- A method `Tuple.Create` of the compilation, and a local that is read ahead of its initializer, let the two
analyses contradict each other where the flow is simple. -/
theorem exists_created_and_shared :
    HasSharedCreation (.ofDocuments [Sample.relaying]) ∧ HasSharedCreation (.ofDocuments [Sample.leading]) := by
  refine ⟨hasSharedCreation_of_any 3 ?_, hasSharedCreation_of_any 3 ?_⟩
  · decide +kernel
  · decide +kernel

end Model

end Disposal
