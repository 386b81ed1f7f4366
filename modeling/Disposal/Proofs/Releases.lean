import Disposal.Proofs.DisposingScope
import Disposal.Proofs.Scans
import Disposal.Proofs.Sketch

/-!
# What releases a member

A field or property is released in the bodies of dispose methods, in the clean-up methods of a test class, and in the
helpers that are called from there.

* `Model.reaches_iff_isRun`: the bodies that a scan reaches;
* `Model.isMemberDisposed_iff`: when a member is found to be released.
-/

namespace Disposal

namespace Model

/-! ### The bodies of a compilation -/

/-- A body has a dispose call, outside the functions in it, that releases a part of a member or all of it. -/
def Releases (m : Model) (member : Symbol) (body : Node) (r : Released) : Prop :=
  ∃ call ∈ body.outsideLambdas, ∃ receiver, call.disposeReceiver? = some receiver ∧
    m.releasedBy? (m.aliases member) receiver = some r

/-- The bodies that run when a value of a type is released: the release scopes of its dispose methods, the clean-up
methods that go with the set-up methods of some writes, and the methods called from there, as far as calls are followed;
dispose methods are not entered. -/
inductive IsRun (m : Model) (owner : TypeDecl) (writes : Write → Prop) (follows : Node → Prop) : Node → Prop where
  | protocol {d : DisposeMethod} {body : Node} (hd : d ∈ m.compilation.protocolMethods owner)
      (hbody : body ∈ m.releaseScope d) : IsRun m owner writes follows body
  | teardown {w : Write} {setup method body : Node} (hw : writes w) (hsetup : w.node.enclosingSetup? = some setup)
      (hmethod : method ∈ m.compilation.teardownMethods owner setup) (hbody : method.body? = some body) :
      IsRun m owner writes follows body
  | helper {body call method body' : Node} (h : IsRun m owner writes follows body)
      (hcall : call ∈ body.outsideLambdas) (hk : call.is .invocationExpression = true) (hfollows : follows call)
      (hsymbol : m.symbol? call = some (.method method)) (hkind : DisposeKind.of? method = none)
      (hbody' : method.body? = some body') : IsRun m owner writes follows body'

private theorem mem_releases_iff {m : Model} {member : Symbol} {body : Node} {r : Released} :
    r ∈ m.releases (m.aliases member) body ↔ m.Releases member body r := by
  simp only [releases, Releases, List.mem_filterMap]
  constructor
  · rintro ⟨receiver, ⟨call, hcall, hreceiver⟩, hr⟩
    exact ⟨call, hcall, receiver, hreceiver, hr⟩
  · rintro ⟨call, hcall, receiver, hreceiver, hr⟩
    exact ⟨receiver, ⟨call, hcall, hreceiver⟩, hr⟩

private theorem helper?_eq_some_iff {m : Model} {call method : Node} :
    m.helper? call = some method ↔ call.is .invocationExpression = true ∧ call.disposeReceiver? = none ∧
      m.symbol? call = some (.method method) ∧ DisposeKind.of? method = none := by
  unfold helper?
  cases hk : call.is .invocationExpression with
  | false => simp
  | true =>
    cases hr : call.disposeReceiver? with
    | some receiver => simp
    | none =>
      simp only [Bool.true_and, Option.isNone_none, if_true, true_and]
      cases hs : m.symbol? call with
      | none => simp
      | some s =>
        cases s with
        | method h =>
          cases hd : DisposeKind.of? h with
          | none =>
            simp only [hd, Option.isNone_none, if_true, Option.some.injEq, Symbol.method.injEq, Option.bind_eq_bind,
              Option.bind_some, iff_self_and]
            rintro rfl
            exact hd
          | some kind =>
            simp only [hd, Option.isNone_some, Bool.false_eq_true, if_false, reduceCtorEq, Option.some.injEq,
              Symbol.method.injEq, Option.bind_eq_bind, Option.bind_some, false_iff, not_and]
            rintro rfl
            rw [hd]
            simp
        | _ => simp

private theorem mem_helpers_iff {m : Model} {body method : Node} :
    method ∈ m.helpers body ↔ ∃ call ∈ body.outsideLambdas, call.is .invocationExpression = true ∧
      call.disposeReceiver? = none ∧ m.symbol? call = some (.method method) ∧ DisposeKind.of? method = none := by
  simp only [helpers, List.mem_filterMap, helper?_eq_some_iff]

private theorem mem_teardowns_iff {m : Model} {owner : TypeDecl} {member : Symbol} {method : Node}
    (hmember : member.isMember = true) (howner : member.owner? m.compilation = some owner) :
    method ∈ m.teardowns owner member ↔ ∃ w ∈ m.writes member (.type owner), ∃ setup,
      w.node.enclosingSetup? = some setup ∧ method ∈ m.compilation.teardownMethods owner setup := by
  have hscope : Scope.ofSymbol? m.compilation member = some (.type owner) := by
    cases member with
    | field n | property n => rw [Scope.ofSymbol?, howner, Option.map_some]
    | _ => cases hmember
  simp only [teardowns, hscope, List.mem_flatMap, List.mem_filterMap]
  constructor
  · rintro ⟨setup, ⟨w, hw, hsetup⟩, hmethod⟩
    exact ⟨w, hw, setup, hsetup, hmethod⟩
  · rintro ⟨w, hw, setup, hsetup, hmethod⟩
    exact ⟨setup, ⟨w, hw, hsetup⟩, hmethod⟩

private theorem mem_releasingBodies_iff {m : Model} {owner : TypeDecl} {member : Symbol} {body : Node} :
    body ∈ (m.releasingBodies owner member).flatten ↔
      (∃ d ∈ m.compilation.protocolMethods owner, body ∈ m.releaseScope d) ∨
        ∃ method ∈ m.teardowns owner member, method.body? = some body := by
  simp only [releasingBodies, List.flatten_append, List.mem_append, List.mem_flatten, List.mem_map,
    exists_exists_and_eq_and, Option.mem_toList]

/-- A scan reaches the bodies that run, when calls of dispose methods are not followed. -/
theorem reaches_iff_isRun {m : Model} {owner : TypeDecl} {member : Symbol} (hmember : member.isMember = true)
    (howner : member.owner? m.compilation = some owner) {body : Node} :
    (m.scanner (m.aliases member)).Reaches (· ∈ (m.releasingBodies owner member).flatten) body ↔
      m.IsRun owner (· ∈ m.writes member (.type owner)) (fun call => call.disposeReceiver? = none) body := by
  constructor
  · intro h
    induction h with
    | root h =>
      rcases mem_releasingBodies_iff.1 h with ⟨d, hd, hbody⟩ | ⟨method, hmethod, hbody⟩
      · exact .protocol hd hbody
      · obtain ⟨w, hw, setup, hsetup, hmethod⟩ := (mem_teardowns_iff hmember howner).1 hmethod
        exact .teardown hw hsetup hmethod hbody
    | helper _ hh hbody' ih =>
      obtain ⟨call, hcall, hk, hreceiver, hsymbol, hkind⟩ := mem_helpers_iff.1 hh
      exact .helper ih hcall hk hreceiver hsymbol hkind hbody'
  · intro h
    induction h with
    | protocol hd hbody => exact .root (mem_releasingBodies_iff.2 (.inl ⟨_, hd, hbody⟩))
    | teardown hw hsetup hmethod hbody =>
      have hmem := (mem_teardowns_iff hmember howner).2 ⟨_, hw, _, hsetup, hmethod⟩
      exact .root (mem_releasingBodies_iff.2 (.inr ⟨_, hmem, hbody⟩))
    | helper _ hcall hk hreceiver hsymbol hkind hbody' ih =>
      exact .helper ih (mem_helpers_iff.2 ⟨_, hcall, hk, hreceiver, hsymbol, hkind⟩) hbody'

section

variable {c : Compilation} (hc : c.IsRead)

include hc

private theorem hasPlace_of_mem_helpers {body h : Node} (hbody : c.HasPlace body) (hh : h ∈ c.model.helpers body) :
    c.HasPlace h := by
  obtain ⟨call, hcall, -, -, hsymbol, -⟩ := mem_helpers_iff.1 hh
  have hplace := hbody.of_mem_preorder (Node.mem_preorder_of_mem_walk (List.mem_filter.1 hcall).1)
  exact hc.isIn_symbol? hplace hsymbol h rfl

private theorem hasPlace_of_mem_releaseScope {owner : TypeDecl} {d : DisposeMethod} (hd : d ∈ c.protocolMethods owner)
    {body : Node} (hbody : body ∈ c.model.releaseScope d) : c.HasPlace body := by
  have hplace : c.HasPlace d.node := by
    obtain ⟨t, -, hd⟩ := List.mem_flatMap.1 hd
    obtain ⟨n, hn, hmap⟩ := List.mem_filterMap.1 hd
    obtain ⟨kind, -, rfl⟩ := Option.map_eq_some_iff.1 hmap
    exact hc.hasPlace_of_members hn
  have whole : body ∈ d.node.body?.toList → c.HasPlace body := fun h => hplace.of_body? (Option.mem_toList.1 h)
  unfold releaseScope at hbody
  split at hbody
  · unfold disposingScope at hbody
    split at hbody
    · next param block _ hblock =>
      have hbelow := (@IsSparing.disposingWithin "" (Guard.of? c.model param) block.here.height).below_statements hbody
      exact (hplace.of_blockBody? hblock).of_mem_preorder hbelow
    · cases hbody
  · exact whole hbody

private theorem hasPlace_of_mem_teardowns {owner : TypeDecl} {member : Symbol} {method : Node}
    (h : method ∈ c.model.teardowns owner member) : c.HasPlace method := by
  unfold teardowns at h
  split at h
  · cases h
  · obtain ⟨setup, -, h⟩ := List.mem_flatMap.1 h
    unfold Compilation.teardownMethods at h
    split at h
    · cases h
    · obtain ⟨t, -, h⟩ := List.mem_flatMap.1 (List.mem_filter.1 h).1
      exact hc.hasPlace_of_members h

private theorem hasPlace_of_mem_releasingBodies {owner : TypeDecl} {member : Symbol} {body : Node}
    (h : body ∈ (c.model.releasingBodies owner member).flatten) : c.HasPlace body := by
  rcases mem_releasingBodies_iff.1 h with ⟨d, hd, hbody⟩ | ⟨method, hmethod, hbody⟩
  · exact hasPlace_of_mem_releaseScope hc hd hbody
  · exact (hasPlace_of_mem_teardowns hc hmethod).of_body? hbody

end

/-- A tuple type counts as one only if a part of it can be disposed. -/
private theorem isComplete_memberSlots_nil (m : Model) (member : Symbol) :
    isComplete (m.memberSlots? member) [] = false := by
  cases hslots : m.memberSlots? member with
  | none => rfl
  | some slots =>
    obtain ⟨t, -, ht⟩ := Option.bind_eq_some_iff.1 hslots
    have hany : true ∈ slots := by
      unfold Compilation.disposableSlots? at ht
      split at ht
      · split at ht
        · next ts _ h =>
          cases ht
          obtain ⟨u, hu, hdisposable⟩ := List.any_eq_true.1 h
          exact List.mem_map.2 ⟨u, hu, hdisposable⟩
        · cases ht
      · cases ht
    rw [Bool.eq_false_iff]
    intro h
    obtain ⟨i, hi⟩ := List.mem_iff_getElem?.1 hany
    cases isComplete_iff.1 h i hi

/-- A member is found to be released exactly if all of it that can be disposed is the target of dispose calls in the
bodies that run. In whatever order bodies, dispose calls and calls of helpers are met, the answer is the same; and scans
are never nested deeper than there are nodes, since more depth makes no difference. -/
theorem isMemberDisposed_iff (documents : List Document) {member : Symbol} {owner : TypeDecl}
    (hmember : member.isMember = true) (howner : member.owner? (Compilation.ofDocuments documents) = some owner) :
    let m := (Compilation.ofDocuments documents).model
    (m.isMemberDisposed member = true ↔ IsAllOf (m.memberSlots? member) fun r => ∃ body,
      m.IsRun owner (· ∈ m.writes member (.type owner)) (·.disposeReceiver? = none) body ∧ m.Releases member body r) ∧
    (∀ sc groups depth, (Compilation.ofDocuments documents).size < depth →
      Scanner.Rearranges (m.scanner (m.aliases member)) sc (m.releasingBodies owner member) groups →
      sc.completes depth (m.memberSlots? member) .start groups = m.isMemberDisposed member) ∧
    ∀ depth, (Compilation.ofDocuments documents).size < depth →
      (m.releasingBodies owner member).foldl ((m.scanner (m.aliases member)).scan depth) .start =
        (m.releasingBodies owner member).foldl ((m.scanner (m.aliases member)).scan m.limit) .start := by
  intro m
  have hc := Compilation.isRead_ofDocuments documents
  have hin : ∀ body, (Compilation.ofDocuments documents).HasPlace body →
      ∀ h ∈ (m.scanner (m.aliases member)).helpers body, (Compilation.ofDocuments documents).HasPlace h :=
    fun body hbody h hh => hasPlace_of_mem_helpers hc hbody hh
  have hgroups : ∀ body ∈ (m.releasingBodies owner member).flatten, (Compilation.ofDocuments documents).HasPlace body :=
    fun body hbody => hasPlace_of_mem_releasingBodies hc hbody
  have hlimit := (Compilation.ofDocuments documents).size_lt_limit
  have hopen := isComplete_memberSlots_nil m member
  have hanswer : m.isMemberDisposed member = (m.scanner (m.aliases member)).completes m.limit (m.memberSlots? member)
      .start (m.releasingBodies owner member) := by
    have howner' : member.owner? m.compilation = some owner := howner
    rw [isMemberDisposed, howner']
  refine ⟨?_, ?_, ?_⟩
  · rw [hanswer, Scanner.completes_iff hin hlimit hgroups hopen]
    have hiff : ∀ body r, ((m.scanner (m.aliases member)).Reaches (· ∈ (m.releasingBodies owner member).flatten) body ∧
          r ∈ (m.scanner (m.aliases member)).releases body) ↔
        (m.IsRun owner (· ∈ m.writes member (.type owner)) (·.disposeReceiver? = none) body ∧
          m.Releases member body r) := by
      intro body r
      exact and_congr (reaches_iff_isRun hmember howner) mem_releases_iff
    simp only [hiff]
  · intro sc groups depth hdepth hsame
    rw [hanswer]
    exact hsame.completes_eq hin hgroups hlimit hdepth hopen
  · intro depth hdepth
    exact Scanner.foldl_scan_congr hin hgroups (Scan.IsIn.start _) hdepth hlimit

namespace Sample

open Sketch

/-- `Stream f=new MemoryStream();` -/
def streamField (words : List String) : Sketch := fieldOf words "Stream" "f" (create "MemoryStream")

/-- `f.Dispose();` -/
def release (receiver : Sketch) : Sketch := statement (call (access receiver "Dispose") [])

/-- Two helpers call each other, and one of them releases the field:
`class C{…void Dispose(){A();}void A(){B();}void B(){A();this.f.Dispose();}}`. -/
def circling : Document :=
  let run (f : String) : Sketch := statement (call (name f) [])
  document "C.cs"
    [classOf "C"
      [streamField [], method [] void "Dispose" [] [run "A"], method [] void "A" [] [run "B"],
       method [] void "B" [] [run "A", release (access self "f")]]]

/-- `(Stream s=null)` -/
def optional : Sketch :=
  ofKind .parameter
    [((name "Stream").inField .type).spaced, (name "s").inField .name,
     ofKind .equalsValueClause [token "=", leaf (.other "null_literal") "null"]]

/-- A method that is called like a dispose method, and is none, releases the field:
`class C{…H h=new H();void Dispose(){this.h.Dispose();}}` and
`class H{C c=new C();void Dispose(Stream s=null){this.c.f.Dispose();}}`. -/
def entrusting : Document :=
  document "C.cs"
    [classOf "C"
      [streamField [], fieldOf [] "H" "h" (create "H"), method [] void "Dispose" [] [release (access self "h")]],
     classOf "H"
      [fieldOf [] "C" "c" (create "C"),
       method [] void "Dispose" [optional] [release (access (access self "c") "f")]]]

/-- `[M]` -/
def tag (markName : String) : Sketch :=
  ofKind .attributeList (between "[" "]" [ofKind .attributeUse [(name markName).inField .name]])

/-- A derived class sets the field up, and the clean-up method of the base class releases it:
`class B{…[TearDown]void T(){this.f.Dispose();}}class D:B{[SetUp]void S(){this.f=new MemoryStream();}}`. -/
def inheriting : Document :=
  document "C.cs"
    [classOf "B"
      [streamField ["protected"], marked (tag "TearDown") (method [] void "T" [] [release (access self "f")])],
     ofKind .classDeclaration
      [(token "class").spaced, (name "D").inField .name,
       (ofKind .baseList [token ":", name "B"]).inField .bases,
       (ofKind .declarationList (between "\x7b" "\x7d"
         [marked (tag "SetUp")
           (method [] void "S" [] [assign (access self "f") (create "MemoryStream")])])).inField .body]]

end Sample

/-- The theorem where helpers call each other. -/
theorem isMemberDisposed_iff_circling :
    let m := (Compilation.ofDocuments [Sample.circling]).model
    ∃ member owner, member.isMember = true ∧
      member.owner? (Compilation.ofDocuments [Sample.circling]) = some owner ∧
      IsAllOf (m.memberSlots? member) fun r => ∃ body,
        m.IsRun owner (· ∈ m.writes member (.type owner)) (·.disposeReceiver? = none) body ∧
          m.Releases member body r := by
  intro m
  have hany : ((Compilation.ofDocuments [Sample.circling]).places.any fun n => n.is .variableDeclarator &&
      ((Symbol.field n).owner? (Compilation.ofDocuments [Sample.circling])).isSome &&
      (Compilation.ofDocuments [Sample.circling]).model.isMemberDisposed (.field n)) = true := by
    decide +kernel
  obtain ⟨n, -, h⟩ := List.any_eq_true.1 hany
  rw [Bool.and_eq_true, Bool.and_eq_true] at h
  obtain ⟨owner, howner⟩ := Option.isSome_iff_exists.1 h.1.2
  exact ⟨.field n, owner, rfl, howner, (isMemberDisposed_iff [Sample.circling] rfl howner).1.1 h.2⟩

/-- Some member is released if all calls are followed and set-up methods are looked for in all types, but is not found
to be. -/
def IsMissed (c : Compilation) : Prop :=
  ∃ member owner, member.isMember = true ∧ member.owner? c = some owner ∧ c.model.isMemberDisposed member = false ∧
    IsAllOf (c.model.memberSlots? member) fun r => ∃ body,
      c.model.IsRun owner (fun w => ∃ t, w ∈ c.model.writes member (.type t)) (fun _ => True) body ∧
        c.model.Releases member body r

private theorem isMissed_of_field {c : Compilation} {n : Node} {owner : TypeDecl}
    (howner : (Symbol.field n).owner? c = some owner) (hopen : c.model.isMemberDisposed (.field n) = false)
    (hslots : (c.model.memberSlots? (.field n)).isNone = true) {body : Node}
    (hrun : c.model.IsRun owner (fun w => ∃ t, w ∈ c.model.writes (.field n) (.type t)) (fun _ => True) body)
    (hwhole : (c.model.releases (c.model.aliases (.field n)) body).contains .whole = true) : IsMissed c := by
  refine ⟨.field n, owner, rfl, howner, hopen, ?_⟩
  rw [Option.isNone_iff_eq_none.1 hslots]
  exact ⟨body, hrun, mem_releases_iff.1 (List.contains_iff_mem.1 hwhole)⟩

/-- The method of the compilation that a call calls, if it is no dispose method. -/
def calledMethod? (m : Model) (call : Node) : Option Node :=
  match m.symbol? call with
  | some (.method h) => if (DisposeKind.of? h).isNone then some h else none
  | _ => none

theorem calledMethod?_eq_some {m : Model} {call method : Node} (h : m.calledMethod? call = some method) :
    m.symbol? call = some (.method method) ∧ DisposeKind.of? method = none := by
  unfold calledMethod? at h
  split at h
  · next k hs =>
    split at h
    · next hk =>
      cases h
      exact ⟨hs, Option.isNone_iff_eq_none.1 hk⟩
    · cases h
  · cases h

private theorem isMissed_of_called {c : Compilation}
    (h : (c.places.any fun n => ((Symbol.field n).owner? c).any fun owner =>
      n.is .variableDeclarator && !c.model.isMemberDisposed (.field n) && (c.model.memberSlots? (.field n)).isNone &&
        (c.protocolMethods owner).any fun d => (c.model.releaseScope d).any fun body =>
          body.outsideLambdas.any fun call => call.is .invocationExpression &&
            (c.model.calledMethod? call).any fun method => method.body?.any fun body' =>
              (c.model.releases (c.model.aliases (.field n)) body').contains .whole) = true) : IsMissed c := by
  simp only [List.any_eq_true, Bool.and_eq_true, Option.any_eq_true, Bool.not_eq_true'] at h
  obtain ⟨n, -, owner, howner, ⟨⟨-, hopen⟩, hslots⟩, d, hd, body, hbody, call, hcall, hk, method, hmethod, h⟩ := h
  obtain ⟨body', hbody', hwhole⟩ := h
  obtain ⟨hsymbol, hkind⟩ := calledMethod?_eq_some hmethod
  refine isMissed_of_field howner hopen hslots ?_ hwhole
  exact .helper (.protocol hd hbody) hcall hk trivial hsymbol hkind hbody'

private theorem isMissed_of_setup {c : Compilation}
    (h : (c.places.any fun n => ((Symbol.field n).owner? c).any fun owner =>
      n.is .variableDeclarator && !c.model.isMemberDisposed (.field n) && (c.model.memberSlots? (.field n)).isNone &&
        c.types.any fun t => (c.model.writes (.field n) (.type t)).any fun w => w.node.enclosingSetup?.any fun setup =>
          (c.teardownMethods owner setup).any fun method => method.body?.any fun body =>
            (c.model.releases (c.model.aliases (.field n)) body).contains .whole) = true) : IsMissed c := by
  simp only [List.any_eq_true, Bool.and_eq_true, Option.any_eq_true, Bool.not_eq_true'] at h
  obtain ⟨n, -, owner, howner, ⟨⟨-, hopen⟩, hslots⟩, t, -, w, hw, setup, hsetup, method, hmethod, h⟩ := h
  obtain ⟨body, hbody, hwhole⟩ := h
  exact isMissed_of_field howner hopen hslots (.teardown ⟨t, hw⟩ hsetup hmethod hbody) hwhole

/-- A dispose call is not followed into a method that is no dispose method, and a set-up method of a derived class is
not paired with a clean-up method of the class that declares the field. -/
theorem isMemberDisposed_detours :
    IsMissed (Compilation.ofDocuments [Sample.entrusting]) ∧
      IsMissed (Compilation.ofDocuments [Sample.inheriting]) := by
  constructor
  · apply isMissed_of_called
    decide +kernel
  · apply isMissed_of_setup
    decide +kernel

end Model

end Disposal
