import Disposal.Proofs.Declarations
import Disposal.Proofs.Sketch
import Disposal.Rule.CreatedLocal

/-!
# What becomes of a value

A value that is returned, stored or given to a new object is kept, however it is converted on the way there. The way
from an expression up to such a place is not the way down that `Node.stripConversions` takes: it goes through all
conversions but `e as T`.

* `Fate.of_of_insideConversion?`: one conversion on the way up;
* `Fate.of_of_isHandedOver`: the places where a value is kept;
* `Fate.of_of_convertedThrough`: a converted value is followed exactly when no `as` is on the way.
-/

namespace Disposal

namespace Node

/-! ### Converted values -/

/-- The first expression with conversions around it, innermost first, is the last one. An `await` is not a conversion
here: its value is another one. -/
inductive ConvertedThrough : Node → List Node → Node → Prop
  | bare (e : Node) : ConvertedThrough e [] e
  | inside {e c w : Node} {cs : List Node} (hc : c.insideConversion? = some e)
      (hawait : c.is .awaitExpression = false) (h : ConvertedThrough c cs w) : ConvertedThrough e (c :: cs) w

/-- Nodes that turn a value into another one or the same. -/
def conversions : List Kind :=
  [.parenthesizedExpression, .castExpression, .asExpression, .awaitExpression, .binaryExpression,
   .postfixUnaryExpression]

private theorem isAny_conversions {c e : Node} (h : c.insideConversion? = some e) : c.isAny conversions = true := by
  unfold insideConversion? at h
  split at h
  all_goals first
    | cases h
    | next hk => exact isAny_iff.2 ⟨_, by decide, hk⟩

/-- Whether a conversion hands on the value of its operand to what is around it: not so `e as T`, nor `e!` with blanks
behind the mark. -/
def isSeenThrough (c : Node) : Bool :=
  !c.is .asExpression && (!c.is .postfixUnaryExpression || c.text.toList.getLast? == some '!')

private theorem passesValueOf_of_insideConversion? {c e : Node} (h : c.insideConversion? = some e)
    (hawait : c.is .awaitExpression = false) : c.passesValueOf e = c.isSeenThrough := by
  unfold insideConversion? at h
  split at h
  · next hk => simp [passesValueOf, isSeenThrough, hk, is_eq_of_kind? hk]
  · next hk => simp [passesValueOf, isSeenThrough, hk, is_eq_of_kind? hk]
  · next hk => simp [passesValueOf, isSeenThrough, hk, is_eq_of_kind? hk]
  · next hk =>
    rw [is_eq_of_kind? hk] at hawait
    cases hawait
  · next hk =>
    split at h
    · next has =>
      have hop : c.binaryOperator? = some "as" := by
        rw [isAsOperator, Bool.and_eq_true] at has
        exact LawfulBEq.eq_of_beq has.2
      simp [passesValueOf, isSeenThrough, hk, is_eq_of_kind? hk, hop]
    · cases h
  · next hk => simp [passesValueOf, isSeenThrough, hk, is_eq_of_kind? hk]
  · cases h

/-! ### Places that keep a value -/

/-- The value of a node is returned, is the initial value of a variable, is assigned, is an element of an initializer,
or is an argument of an object creation. What is passed by `out` is a variable and not its value. -/
inductive IsHandedOver (w : Node) : Prop
  | returned {s : Node} (hs : s.is .returnStatement = true) (hw : s.firstNamed? = some w)
  | initial {d : Node} (hd : d.is .variableDeclarator = true) (hw : d.initializer? = some w)
  | assigned {n : Node} {a : Assignment} (ha : n.assignment? = some a) (hw : a.right = w)
  | element {l : Node} (hl : l.is .initializerExpression = true) (hw : w ∈ l.named)
  | argument {call list arg : Node}
      (hcall : call.isAny [.objectCreationExpression, .implicitObjectCreationExpression] = true)
      (hlist : list ∈ call.children) (hk : list.is .argumentList = true) (harg : arg ∈ list.namedOf .argument)
      (hw : arg.argumentExpression? = some w) (hout : arg.passing? ≠ some .out)

end Node

namespace Fate

/-- One step up, to a node that is no argument. -/
private theorem of_of_mem_children {n w : Node} (hw : w ∈ n.children) (hn : n.is .argument = false) :
    Fate.of w =
      if n.passesValueOf w then Fate.of n
      else if n.isAny Node.keepers then kept
      else if n.is .assignmentExpression then if n.assignment?.any (·.right == w) then kept else dropped
      else dropped := by
  rw [Fate.of, Node.ancestors_of_mem_children hw, along.eq_def]
  simp only [hn, Bool.false_eq_true, if_false]
  rfl

/-- What keeps the values of its parts does not hand them on. -/
theorem of_of_keeper {n w : Node} (hw : w ∈ n.children) (hn : n.isAny Node.keepers = true) : Fate.of w = kept := by
  obtain ⟨k, hk, hkind⟩ := Node.isAny_iff.1 hn
  simp only [Node.keepers, List.mem_cons, List.not_mem_nil, or_false] at hk
  have hpass : n.passesValueOf w = false := by
    unfold Node.passesValueOf
    rw [hkind]
    rcases hk with rfl | rfl | rfl | rfl | rfl | rfl | rfl | rfl | rfl | rfl | rfl | rfl | rfl <;> rfl
  have harg : n.is .argument = false := by
    rw [Node.is_eq_of_kind? hkind]
    rcases hk with rfl | rfl | rfl | rfl | rfl | rfl | rfl | rfl | rfl | rfl | rfl | rfl | rfl <;> rfl
  rw [of_of_mem_children hw harg, hpass, hn]
  rfl

/-- A conversion hands on the value of its operand or drops it. -/
theorem of_of_insideConversion? {c e : Node} (h : c.insideConversion? = some e) :
    Fate.of e = if c.passesValueOf e then Fate.of c else dropped := by
  obtain ⟨k, hk, hkind⟩ := Node.isAny_iff.1 (Node.isAny_conversions h)
  simp only [Node.conversions, List.mem_cons, List.not_mem_nil, or_false] at hk
  have hother : c.isAny Node.keepers = false ∧ c.is .assignmentExpression = false ∧ c.is .argument = false := by
    rw [Node.isAny_eq_of_kind? hkind, Node.is_eq_of_kind? hkind, Node.is_eq_of_kind? hkind]
    rcases hk with rfl | rfl | rfl | rfl | rfl | rfl <;> exact ⟨rfl, rfl, rfl⟩
  rw [of_of_mem_children (Node.mem_children_of_insideConversion? c e h) hother.2.2, hother.1, hother.2.1]
  rfl

private theorem of_of_assignment? {n : Node} {a : Node.Assignment} (h : n.assignment? = some a) :
    Fate.of a.right = kept := by
  obtain ⟨hk, -, hright⟩ := Node.kind_of_assignment? h
  have hkeep : n.isAny Node.keepers = false := by rw [Node.isAny_eq_of_kind? hk]; rfl
  have hpass : n.passesValueOf a.right = false := by rw [Node.passesValueOf, hk]
  have harg : n.is .argument = false := by rw [Node.is_eq_of_kind? hk]; rfl
  rw [of_of_mem_children hright harg, hpass, hkeep, Node.is_iff.2 hk, h, Option.any_some, Node.beq_refl]
  rfl

/-- An argument in the list of a call, as it is passed. -/
theorem of_of_argument {call list arg w : Node} (hlist : list ∈ call.children) (hk : list.is .argumentList = true)
    (harg : arg ∈ list.namedOf .argument) (hw : arg.argumentExpression? = some w) :
    Fate.of w =
      match arg.passing? with
      | some .ref => kept
      | some .out => dropped
      | _ => ofArgument arg call := by
  have hargk : arg.is .argument = true := (List.mem_filter.1 harg).2
  have hkind := Node.is_iff.1 hargk
  rw [Node.argumentExpression?, if_pos hargk] at hw
  have hkeep : arg.isAny Node.keepers = false := by rw [Node.isAny_eq_of_kind? hkind]; rfl
  have hpass : arg.passesValueOf w = false := by rw [Node.passesValueOf, hkind]
  have hassign : arg.is .assignmentExpression = false := by rw [Node.is_eq_of_kind? hkind]; rfl
  have htuple : list.is .tupleExpression = false := by rw [Node.is_eq_of_kind? (Node.is_iff.1 hk)]; rfl
  rw [Fate.of, Node.ancestors_of_mem_children (Node.mem_children_of_lastNamed? hw),
    Node.ancestors_of_mem_children (Node.mem_children_of_namedOf harg), Node.ancestors_of_mem_children hlist,
    along.eq_def]
  simp only [hpass, hkeep, hassign, hargk, Bool.false_eq_true, if_false, if_true]
  cases arg.passing? with
  | none => simp [htuple]
  | some p => cases p <;> simp [htuple]

/-- A value that is handed over is kept. -/
theorem of_of_isHandedOver {w : Node} (h : w.IsHandedOver) : Fate.of w = kept := by
  cases h with
  | returned hs hw =>
    refine of_of_keeper (Node.mem_children_of_firstNamed? hw) ?_
    rw [Node.isAny_eq_of_kind? (Node.is_iff.1 hs)]
    rfl
  | initial hd hw =>
    have hkind := Node.is_iff.1 hd
    unfold Node.initializer? at hw
    split at hw
    · next clause hclause =>
      have hany : clause.is .equalsValueClause = true := by
        rw [← Node.isAny_singleton]
        exact List.find?_some (p := fun c : Node => c.isAny [.equalsValueClause]) hclause
      refine of_of_keeper (Node.mem_children_of_firstNamed? hw) ?_
      rw [Node.isAny_eq_of_kind? (Node.is_iff.1 hany)]
      rfl
    · have hprop := Node.is_eq_of_kind? hkind .propertyDeclaration
      rw [hprop] at hw
      dsimp only at hw
      split at hw
      · next hv =>
        obtain ⟨hv, -⟩ := Option.filter_eq_some_iff.1 hv
        cases hv
      · split at hw
        · cases hw
        · next t after hafter =>
          have hmem := List.dropWhile_sublist _ |>.subset
            (hafter.symm ▸ List.mem_cons_of_mem t (List.mem_of_find?_eq_some hw))
          refine of_of_keeper hmem ?_
          rw [Node.isAny_eq_of_kind? hkind]
          rfl
  | assigned ha hw => rw [← hw, of_of_assignment? ha]
  | element hl hw =>
    refine of_of_keeper (Node.mem_children_of_named hw) ?_
    rw [Node.isAny_eq_of_kind? (Node.is_iff.1 hl)]
    rfl
  | @argument call list arg hcall hlist hk harg hw hout =>
    have hkeeps : call.isAny Node.argumentKeepers = true := by
      obtain ⟨k, hk, hkind⟩ := Node.isAny_iff.1 hcall
      refine Node.isAny_iff.2 ⟨k, ?_, hkind⟩
      simp only [List.mem_cons, List.not_mem_nil, or_false] at hk
      rcases hk with rfl | rfl <;> decide
    rw [of_of_argument hlist hk harg hw, ofArgument, if_pos hkeeps]
    split
    · rfl
    · next hp => exact absurd hp hout
    · rfl

/-- A converted value fares as the whole does, if every conversion hands it on, and is lost to sight otherwise. -/
theorem of_of_convertedThrough {e w : Node} {cs : List Node} (h : e.ConvertedThrough cs w) :
    Fate.of e = if cs.all Node.isSeenThrough then Fate.of w else dropped := by
  induction h with
  | bare e => rfl
  | @inside e c w cs hc hawait h ih =>
    rw [of_of_insideConversion? hc, Node.passesValueOf_of_insideConversion? hc hawait, ih, List.all_cons]
    cases c.isSeenThrough <;> rfl

end Fate

namespace Model

/-- A value that is handed over after some conversions is seen to be so exactly when all of them hand it on. -/
theorem escapes_of_convertedThrough (m : Model) (follow : Node → Node → Bool) (path : List Node) {e w : Node}
    {cs : List Node} (hconverted : e.ConvertedThrough cs w) (hplace : w.IsHandedOver) :
    m.escapes follow path e = cs.all Node.isSeenThrough := by
  rw [escapes, Fate.of_of_convertedThrough hconverted, Fate.of_of_isHandedOver hplace]
  cases cs.all Node.isSeenThrough <;> rfl

namespace Sample

open Sketch

/-- `class C{Stream M(){MemoryStream s=new MemoryStream();return …;}}` -/
def returningOf (value : Sketch) : Document :=
  document "C.cs"
    [classOf "C"
      [method [] (name "Stream") "M" []
        [declare "MemoryStream" "s" (create "MemoryStream"), returning value]]]

/-- `return ((Stream)s)!;` -/
def unchanged : Compilation := .ofDocuments [returningOf (forgiven (parens (castTo "Stream" (name "s"))))]

/-- `return s as Stream;` -/
def retyped : Compilation := .ofDocuments [returningOf (asType (name "s") "Stream")]

end Sample

/-- The theorem where a value is cast, put in parentheses and marked as not null before it is returned. -/
theorem escapes_of_convertedThrough_unchanged :
    ∃ e cs w, Sample.unchanged.HasPlace e ∧ e.text = "s" ∧ e.ConvertedThrough cs w ∧ w.text = "((Stream)s)!" ∧
      w.IsHandedOver ∧ Sample.unchanged.model.escapes (fun _ _ => false) [] e = true := by
  have hany : (Sample.unchanged.places.any fun s => s.is .returnStatement && s.firstNamed?.any fun w =>
      w.text == "((Stream)s)!" && !w.is .awaitExpression && w.isSeenThrough && w.insideConversion?.any fun p =>
        !p.is .awaitExpression && p.isSeenThrough && p.insideConversion?.any fun c =>
          !c.is .awaitExpression && c.isSeenThrough && c.insideConversion?.any fun e => e.text == "s") = true := by
    decide +kernel
  simp only [List.any_eq_true, Bool.and_eq_true, Bool.not_eq_true', Option.any_eq_true, beq_iff_eq] at hany
  obtain ⟨s, hs, hsk, w, hw, ⟨⟨hwt, hwa⟩, hws⟩, p, hp, ⟨hpa, hps⟩, c, hc, ⟨hca, hcs⟩, e, he, het⟩ := hany
  have hconverted : e.ConvertedThrough [c, p, w] w := .inside he hca (.inside hc hpa (.inside hp hwa (.bare w)))
  have hplace : Sample.unchanged.HasPlace e := by
    have hw' := (Compilation.mem_places_iff.1 hs).of_firstNamed? hw
    exact .child (.child (.child hw' (Node.mem_children_of_insideConversion? w p hp))
      (Node.mem_children_of_insideConversion? p c hc)) (Node.mem_children_of_insideConversion? c e he)
  refine ⟨e, [c, p, w], w, hplace, het, hconverted, hwt, .returned hsk hw, ?_⟩
  rw [escapes_of_convertedThrough _ _ _ hconverted (.returned hsk hw)]
  simp [hcs, hps, hws]

/-- A local that is returned by `return s as T;` is not seen to be handed over, and is reported. -/
theorem escapes_retyped_eq_false :
    ∃ n d region e w, Sample.retyped.HasPlace region ∧ d.text = "s=new MemoryStream()" ∧
      e ∈ Sample.retyped.model.references (.localVar d) (.node region) ∧ e.ConvertedThrough [w] w ∧ w.IsHandedOver ∧
      (∀ follow path, Sample.retyped.model.escapes follow path e = false) ∧
      (CreatedLocal.check Sample.retyped.model n).map (·.message) =
        ["Dispose created: `s` is created here and never disposed"] := by
  have hany : (Sample.retyped.places.any fun n => Sample.retyped.places.any fun d =>
      Sample.retyped.places.any fun region => d.text == "s=new MemoryStream()" &&
        decide ((CreatedLocal.check Sample.retyped.model n).map (·.message) =
          ["Dispose created: `s` is created here and never disposed"]) &&
        Sample.retyped.places.any fun s => s.is .returnStatement && s.firstNamed?.any fun w =>
          !w.is .awaitExpression && !w.isSeenThrough && w.insideConversion?.any fun e =>
            (Sample.retyped.model.references (.localVar d) (.node region)).any (· == e)) = true := by
    decide +kernel
  simp only [List.any_eq_true, Bool.and_eq_true, Bool.not_eq_true', Option.any_eq_true, decide_eq_true_eq,
    beq_iff_eq] at hany
  obtain ⟨n, -, d, -, region, hregion, ⟨hd, hcheck⟩, s, hs, hsk, w, hw, ⟨hwa, hws⟩, e, he, e', he', heq⟩ := hany
  have hregion := Compilation.mem_places_iff.1 hregion
  -- the mention is the operand, as both are places of the program
  have hplace : Sample.retyped.HasPlace e :=
    .child ((Compilation.mem_places_iff.1 hs).of_firstNamed? hw) (Node.mem_children_of_insideConversion? w e he)
  obtain rfl := (hasPlace_of_mem_references hregion he').eq_of_id hplace (Node.beq_iff.1 heq)
  have hconverted : e'.ConvertedThrough [w] w := .inside he hwa (.bare w)
  refine ⟨n, d, region, e', w, hregion, hd, he', hconverted, .returned hsk hw, fun follow path => ?_, hcheck⟩
  rw [escapes, Fate.of_of_convertedThrough hconverted]
  simp [hws]

end Model

end Disposal
