import Disposal.Member
import Disposal.Proofs.Agreement
import Disposal.Proofs.Sketch

/-!
# Members that a type has to release

What a type has to release it may also dispose: a member that `Model.requiresDisposal` makes the type release is not
taken for a shared value where it is read, as long as nothing borrowed is written to it and both analyses look at the
same values.

* `Model.mayBeShared_eq_false`: the reads of such a member;
* `Model.exists_required_and_shared`: a borrowed value makes the two demands contradict each other.
-/

namespace Disposal

namespace Ownership

/-- Whether a question and all that it leads to are plain, when there are at most so many nested ones. -/
def isPlainWithin (m : Model) : Nat → List Symbol → Query → Bool
  | 0, _, _ => false
  | depth + 1, path, q => q.isPlain m && (asked m path q).all fun x => isPlainWithin m depth x.1 x.2

private theorem isPlainWalk_of_isPlainWithin {m : Model} {depth : Nat} {path : List Symbol} {q : Query}
    (h : isPlainWithin m depth path q = true) : IsPlainWalk m path q := by
  induction depth generalizing path q with
  | zero => cases h
  | succ depth ih =>
    rw [isPlainWithin, Bool.and_eq_true, List.all_eq_true] at h
    exact ⟨h.1, fun x hx => ih (h.2 x hx)⟩

end Ownership

namespace Model

/-- The member that is read by `member` or `this.member`. -/
def readMember? (m : Model) (e : Node) : Option Symbol :=
  if e.is .identifier || (e.is .memberAccessExpression && e.memberReceiver?.any (·.is .thisExpression)) then
    m.symbol? e
  else none

/-- No value written to the member is borrowed, and both analyses look at the same values behind those written. -/
def IsPlainlyWritten (m : Model) (member : Symbol) : Prop :=
  ∀ scope, Scope.ofSymbol? m.compilation member = some scope → ∀ w ∈ m.writes member scope, ∀ v, w.value? = some v →
    m.classify? v ≠ some .borrowed ∧ Ownership.IsPlainWalk m [] (.value v v)

/-- Whether a member is plainly written, when there are at most so many nested questions. -/
def isPlainlyWrittenWithin (m : Model) (depth : Nat) (member : Symbol) : Bool :=
  (Scope.ofSymbol? m.compilation member).all fun scope => (m.writes member scope).all fun w => w.value?.all fun v =>
    m.classify? v != some .borrowed && Ownership.isPlainWithin m depth [] (.value v v)

private theorem isPlainlyWritten_of_within {m : Model} {depth : Nat} {member : Symbol}
    (h : m.isPlainlyWrittenWithin depth member = true) : m.IsPlainlyWritten member := by
  intro scope hscope w hw v hv
  rw [isPlainlyWrittenWithin, hscope, Option.all_some, List.all_eq_true] at h
  have hvalue := h w hw
  rw [hv, Option.all_some, Bool.and_eq_true, bne_iff_ne] at hvalue
  exact ⟨hvalue.1, Ownership.isPlainWalk_of_isPlainWithin hvalue.2⟩

/-- What is known of a member that has to be released. -/
private theorem spec_of_requiresDisposal {m : Model} {member : Symbol} (h : m.requiresDisposal member = true) :
    isStorage member = true ∧ member.isStatic = false ∧
      ∀ scope, Scope.ofSymbol? m.compilation member = some scope →
        ∀ w ∈ m.writes member scope, m.writesForeign w = false := by
  unfold requiresDisposal at h
  simp only [Bool.and_eq_true, Bool.not_eq_true'] at h
  obtain ⟨⟨⟨hstorage, hstatic⟩, -⟩, hwrites⟩ := h
  refine ⟨hstorage, hstatic, ?_⟩
  intro scope hscope w hw
  rw [hscope] at hwrites
  have hforeign := (Bool.and_eq_true_iff.1 hwrites).1
  rw [Bool.not_eq_true', List.any_eq_false] at hforeign
  simpa using hforeign w hw

/-- A value that is neither borrowed nor foreign has no other owner. -/
private theorem unclaimed_of_writesForeign {m : Model} {w : Write} {v : Node} (h : m.writesForeign w = false)
    (hv : w.value? = some v) (hb : m.classify? v ≠ some .borrowed) : Ownership.Unclaimed (m.classify? v) := by
  unfold writesForeign at h
  rw [hv] at h
  dsimp only at h
  cases hc : m.classify? v with
  | none => exact .inl rfl
  | some o =>
    rw [hc] at h hb
    cases o with
    | created => exact .inr rfl
    | borrowed => exact absurd rfl hb
    | injected => cases h
    | cached => cases h

/-- If a variable is read and no value written to it is evidence of sharing, nor is the read. -/
private theorem ofVariable_eq_false {m : Model} {s : Symbol}
    (h : ∀ scope, Scope.ofSymbol? m.compilation s = some scope → ∀ w ∈ m.writes s scope, ∀ v, w.value? = some v →
      Ownership.NotShared m [s] (.value v)) :
    ∃ depth, Sharing.ofVariable m (Sharing.answerWithin m depth) [] s = some false := by
  simp only [Sharing.ofVariable, List.contains_nil, Bool.false_eq_true, if_false]
  cases hs : Scope.ofSymbol? m.compilation s with
  | none => exact ⟨0, rfl⟩
  | some scope =>
    refine Ownership.NotShared.ofAny ?_
    intro v hv
    obtain ⟨w, hw, hwv⟩ := List.mem_filterMap.1 hv
    exact h scope hs w hw v hwv

private theorem symbol?_of_readMember? {m : Model} {e : Node} {member : Symbol} (h : m.readMember? e = some member) :
    m.symbol? e = some member := by
  unfold readMember? at h
  split at h
  · exact h
  · cases h

/-- The values of a member are looked for in a type. -/
private theorem ofSymbol?_ne_node {c : Compilation} {member : Symbol} (h : isStorage member = true) (n : Node) :
    Scope.ofSymbol? c member ≠ some (.node n) := by
  intro hscope
  cases member with
  | field d | property d =>
    obtain ⟨t, -, ht⟩ := Option.map_eq_some_iff.1 hscope
    cases ht
  | _ => cases h

/-- What a storage member that is not static holds is what is written to it. -/
private theorem ofSymbol_of_isStorage {m : Model} {member : Symbol} (hstorage : isStorage member = true)
    (hstatic : member.isStatic = false) (ask : Sharing.Answers) (path : List Symbol) :
    Sharing.ofSymbol m ask path member = Sharing.ofVariable m ask path member := by
  cases member with
  | field d => exact if_neg (by rw [hstatic]; exact Bool.false_ne_true)
  | property p =>
    have hauto : p.isAutoProperty = true := hstorage
    simp [Sharing.ofSymbol, hstatic, hauto]
  | _ => cases hstorage

/-- A read of a member stands for the member itself. -/
private theorem notShared_of_readMember? {m : Model} {e : Node} {member : Symbol}
    (hread : m.readMember? e = some member)
    (h : ∃ depth, Sharing.ofSymbol m (Sharing.answerWithin m depth) [] member = some false) :
    Ownership.NotShared m [] (.value e) := by
  unfold readMember? at hread
  split at hread
  · next hform =>
    have hname : ∃ depth, Sharing.ofName m (Sharing.answerWithin m depth) [] e = some false := by
      simpa only [Sharing.ofName, hread] using h
    rw [Bool.or_eq_true, Bool.and_eq_true, Node.is_iff, Node.is_iff] at hform
    rcases hform with hk | ⟨hk, hself⟩
    · refine Ownership.notShared_of_bare (by rw [Node.insideConversion?, hk]) ?_
      simpa only [Sharing.ofBare, hk] using hname
    · refine Ownership.notShared_of_bare (by rw [Node.insideConversion?, hk]) ?_
      -- `this` is not a wrapper
      have hwrapper : e.wrapper? = none := by
        unfold Node.wrapper?
        split
        · cases hr : e.memberReceiver? with
          | none => rfl
          | some r =>
            rw [hr, Option.any_some, Node.is_iff] at hself
            rw [Option.filter_some, Node.isAny_eq_of_kind? hself]
            rfl
        · rfl
      simpa only [Sharing.ofBare, hk, hwrapper] using hname
  · cases hread

/-- A member that its type has to release is not taken for shared where it is read by its name or through `this`, if
it is written plainly: the walk comes to an end, and the answer is no. -/
theorem mayBeShared_eq_false (documents : List Document) {e : Node} {member : Symbol}
    (hplace : (Compilation.ofDocuments documents).HasPlace e)
    (hread : (Compilation.ofDocuments documents).model.readMember? e = some member)
    (hreq : (Compilation.ofDocuments documents).model.requiresDisposal member = true)
    (hwritten : (Compilation.ofDocuments documents).model.IsPlainlyWritten member) :
    (Compilation.ofDocuments documents).model.mayBeShared e = some false := by
  have hc := Compilation.isRead_ofDocuments documents
  generalize Compilation.ofDocuments documents = c at *
  obtain ⟨hstorage, hstatic, hforeign⟩ := spec_of_requiresDisposal hreq
  have hnot : Ownership.NotShared c.model [] (.value e) := by
    refine notShared_of_readMember? hread ?_
    simp only [ofSymbol_of_isStorage hstorage hstatic]
    refine ofVariable_eq_false ?_
    intro scope hscope w hw v hv
    obtain ⟨hborrowed, hwalk⟩ := hwritten scope hscope w hw v hv
    -- the value is a place of the compilation, so that the limit does not cut off its verdict
    have hvplace : c.HasPlace v := by
      refine hasPlace_of_mem_writes (m := c.model) hc (hc.isIn_symbol? hplace (symbol?_of_readMember? hread)) ?_ hw hv
      intro n hn
      exact absurd (hn ▸ hscope) (ofSymbol?_ne_node hstorage n)
    exact Ownership.notShared_of_answerWithin hwalk (Ownership.answerWithin_limit hc hvplace)
      (unclaimed_of_writesForeign (hforeign scope hscope w hw) hv hborrowed) nofun
  obtain ⟨depth, ha⟩ := hnot
  exact Sharing.mayBeShared_of_answerWithin hc hplace ha

namespace Sample

open Sketch

/-- `class C{Stream f=new MemoryStream();…void M(Stream p){…this.f.Dispose();}}` -/
def keeping (members body : List Sketch) : Sketch :=
  classOf "C" ([fieldOf [] "Stream" "f" (create "MemoryStream")] ++ members ++
    [method [] void "M" [parameterOf "Stream" "p"]
      (body ++ [statement (call (access (access self "f") "Dispose") [])])])

/-- The field is set from a local that holds a fresh value. -/
def fresh : Document :=
  document "C.cs"
    [keeping [] [declare "Stream" "s" (create "MemoryStream"), assign (access self "f") (asType (name "s") "Stream")]]

/-- The field is set from a parameter behind a conversion, which is borrowed. -/
def borrowing : Document :=
  document "C.cs" [keeping [] [assign (access self "f") (asType (name "p") "Stream")]]

/-- The local gets the value of the parameter after the field is set from it. -/
def reusing : Document :=
  document "C.cs"
    [keeping [] [declare "Stream" "s" (create "MemoryStream"), assign (access self "f") (name "s"),
      assign (name "s") (name "p")]]

/-- `Tuple.Create` is a method of the compilation that hands out what it gets. -/
def passing : Document :=
  document "C.cs"
    [keeping [] [assign (access self "f") (call (access (name "Tuple") "Create") [create "MemoryStream"])],
     classOf "Tuple"
       [method ["static"] (name "Stream") "Create" [parameterOf "Stream" "x"] [returning (name "x")]]]

/-- The property has a getter that makes a value, and another value to begin with. -/
def computing : Document :=
  document "C.cs"
    [keeping
      [fieldOf ["static"] "Stream" "S" (create "MemoryStream"),
       propertyOf "Stream" "P" [returning (create "MemoryStream")] (name "S")]
      [assign (access self "f") (access self "P")]]

/-- The compilation of one file. -/
def alone (document : Document) : Compilation := .ofDocuments [document]

end Sample

/-- The theorem where a field is set from a local behind a conversion. -/
theorem mayBeShared_eq_false_fresh :
    ∃ e member, (Sample.alone Sample.fresh).HasPlace e ∧
      (Sample.alone Sample.fresh).model.readMember? e = some member ∧
      (Sample.alone Sample.fresh).model.requiresDisposal member = true ∧
      (Sample.alone Sample.fresh).model.IsPlainlyWritten member ∧
      (Sample.alone Sample.fresh).model.mayBeShared e = some false := by
  have hany : ((Sample.alone Sample.fresh).places.any fun e =>
      ((Sample.alone Sample.fresh).model.readMember? e).any fun member =>
        (Sample.alone Sample.fresh).model.requiresDisposal member &&
          (Sample.alone Sample.fresh).model.isPlainlyWrittenWithin 4 member) = true := by
    decide +kernel
  obtain ⟨e, hplace, h⟩ := List.any_eq_true.1 hany
  obtain ⟨member, hread, h⟩ := (Option.any_eq_true _ _).1 h
  rw [Bool.and_eq_true] at h
  have hplace := Compilation.mem_places_iff.1 hplace
  have hwritten := isPlainlyWritten_of_within h.2
  exact ⟨e, member, hplace, hread, h.1, hwritten, mayBeShared_eq_false [Sample.fresh] hplace hread h.1 hwritten⟩

/-- Some member has to be released and is taken for shared where it is read. -/
def HasConflict (c : Compilation) : Prop :=
  ∃ e member, c.HasPlace e ∧ c.model.readMember? e = some member ∧ c.model.requiresDisposal member = true ∧
    c.model.mayBeShared e = some true

private theorem hasConflict_of_any {c : Compilation}
    (h : (c.places.any fun e => (c.model.readMember? e).any fun member =>
      c.model.requiresDisposal member && c.model.mayBeShared e == some true) = true) : HasConflict c := by
  obtain ⟨e, hplace, h⟩ := List.any_eq_true.1 h
  obtain ⟨member, hread, h⟩ := (Option.any_eq_true _ _).1 h
  rw [Bool.and_eq_true, beq_iff_eq] at h
  exact ⟨e, member, Compilation.mem_places_iff.1 hplace, hread, h.1, h.2⟩

/-- Each of the four ways in which the two analyses look at different values lets them contradict each other. -/
theorem exists_required_and_shared :
    HasConflict (Sample.alone Sample.borrowing) ∧ HasConflict (Sample.alone Sample.reusing) ∧
      HasConflict (Sample.alone Sample.passing) ∧ HasConflict (Sample.alone Sample.computing) := by
  refine ⟨hasConflict_of_any ?_, hasConflict_of_any ?_, hasConflict_of_any ?_, hasConflict_of_any ?_⟩
  · decide +kernel
  · decide +kernel
  · decide +kernel
  · decide +kernel

end Model

end Disposal
