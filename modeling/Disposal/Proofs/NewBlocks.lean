import Disposal.Engine
import Disposal.Proofs.Batches
import Disposal.Proofs.Sketch
import Disposal.Proofs.Slices

/-!
# Blocks that are put in

An edit that puts a block with a heading at the end of another block, or in front of a statement, replaces the blanks in
front of that place. Two such edits at one place are meant to overlap, so that a batch makes one of them and puts the
other off. They do so exactly where there are blanks to replace: in front of the closing brace, behind the opening one;
or on the line of the statement, with nothing else in front of it. Elsewhere both put something in at one offset, which
is no overlap, and a batch writes both blocks.

* `Opening.lt_iff_hasRoom`: when there is something to replace;
* `Edit.applyAll_insertions`: what is put in at one offset;
* `Opening.overlaps_iff_hasRoom`: when two edits at one place overlap, and what a batch does with them.
-/

namespace Disposal

/-! ### Edits at one place -/

namespace Edit

open Text

/-- Edits of one stretch overlap if it is not empty. -/
private theorem overlaps_iff_lt {e f : Edit} (hstart : f.start = e.start) (hstop : f.stop = e.stop) :
    e.overlaps f = true ↔ e.start < e.stop := by
  unfold overlaps isInsertion
  rw [hstart, hstop]
  by_cases h : e.start = e.stop
  · simp [h]
  · simp [h]

/-- What is put in at one offset stands there in the order of the list. -/
theorem applyAll_insertions {source : String} {offset : Nat} (h : isBoundary source.toList offset = true)
    {edits : List Edit} (hedits : ∀ e ∈ edits, e.start = offset ∧ e.stop = offset) :
    applyAll source edits = .ok (String.ofList (takeBytes offset source.toList ++
      (edits.flatMap (·.replacement.toList) ++ dropBytes offset source.toList))) := by
  have hcheck : check source.toList edits = .ok () := by
    refine check_eq_ok_iff.2 ⟨fun e he => ?_, List.pairwise_of_forall_mem_list fun e he f hf => ?_⟩
    · obtain ⟨hstart, hstop⟩ := hedits e he
      exact ⟨by omega, by rw [hstart, h], by rw [hstop, h]⟩
    · obtain ⟨hstart, hstop⟩ := hedits e he
      obtain ⟨hstart', hstop'⟩ := hedits f hf
      rw [← Bool.not_eq_true, overlaps_iff_lt (by omega) (by omega)]
      omega
  have hsorted : edits.Pairwise fun a b => a.start ≤ b.start := by
    refine List.pairwise_of_forall_mem_list fun e he f hf => ?_
    exact Nat.le_of_eq ((hedits e he).1.trans (hedits f hf).1.symm)
  have hord := ordered_inOrder hcheck
  rw [inOrder_eq_self hsorted] at hord
  have hfrom : Ordered source.toList offset edits :=
    ⟨h, hord.fits, fun e he => Nat.le_of_eq (hedits e he).1.symm, hord.follows⟩
  have hpatched : patched source.toList offset (edits ++ []) = _ := patched_insertions hedits []
  rw [List.append_nil] at hpatched
  rw [applyAll_eq_patched hcheck, inOrder_eq_self hsorted, patched_of_le hfrom (isBoundary_zero _) (Nat.zero_le _),
    hpatched, between, Nat.sub_zero, dropBytes_zero]
  rfl

end Edit

namespace Batch

/-- Of two suggestions with edits that overlap, no batch applies both. -/
private theorem not_isApplied_of_overlaps {source : List Char} {risky : Bool} {before middle : List Suggestion}
    {s s' : Suggestion} {e f : Edit} (he : e ∈ s.edits) (hf : f ∈ s'.edits) (h : e.overlaps f = true)
    (hs : IsApplied source risky before s) : ¬IsApplied source risky (before ++ s :: middle) s' := by
  rw [isApplied_iff_not_collides, collides_iff_meetsApplied.2 ⟨before, s, middle, rfl, hs, e, he, f, hf, h⟩]
  simp

/-- A suggestion that consists of one edit and needs no permission. -/
def single (message : String) (e : Edit) : Suggestion := ⟨message, [e], .machineApplicable⟩

private theorem select_single {source : List Char} {e : Edit} (he : e.Fits source) (risky : Bool) (message : String) :
    select source risky [single message e] = ⟨[e], 1, 0, 0⟩ := by
  simp [select, State.offer, single, collides, Edit.fault?_eq_none_iff.2 he, Applicability.isAllowed]

/-- Two edits that do not overlap are both applied. -/
private theorem select_pair {source : List Char} {e f : Edit} (he : e.Fits source) (hf : f.Fits source)
    (h : e.overlaps f = false) (risky : Bool) (message message' : String) :
    select source risky [single message e, single message' f] = ⟨[e, f], 2, 0, 0⟩ := by
  have hfe : e.fault? source = none := Edit.fault?_eq_none_iff.2 he
  have hff : f.fault? source = none := Edit.fault?_eq_none_iff.2 hf
  simp [select, State.offer, single, collides, hfe, hff, h, Applicability.isAllowed]

end Batch

/-! ### Places -/

/-- A place where a block with a heading is put. -/
inductive Opening where
  /-- In front of the closing brace of a block. -/
  | atEndOf (block : Node)
  /-- In front of a statement. -/
  | before (statement : Node)

namespace Opening

open Text

/-- The edit that puts a block at a place. -/
def edit? (source header : String) (lines : List String) : Opening → Option Edit
  | atEndOf block => Placement.blockAtBlockEnd? source block header lines
  | before statement => some (Placement.blockBeforeStatement source statement header lines)

/-- What stands in front of a statement on its line. -/
def lead (source : String) (statement : Node) : String :=
  Placement.between source (Layout.lineStart source statement.start) statement.start

/-- Whether there are blanks to replace: in front of a closing brace at least one, and behind the opening brace; in
front of a statement at least one, and nothing else on its line. -/
def hasRoom (source : String) : Opening → Bool
  | atEndOf block => (Placement.closingBrace? block).any fun close =>
      block.start + 1 < close && (takeBytes close source.toList).getLast?.any isBlank
  | before statement => lead source statement != "" && Placement.isBlank (lead source statement)

/-- The place lies between two characters of the text, and so does the end of the brace that opens the block. -/
def IsIn (source : String) : Opening → Prop
  | atEndOf block => ∃ close, Placement.closingBrace? block = some close ∧ block.start + 1 ≤ close ∧
      isBoundary source.toList (block.start + 1) = true ∧ isBoundary source.toList close = true
  | before statement => isBoundary source.toList statement.start = true

/-- The stretch that is replaced at a place. -/
def span? (source : String) : Opening → Option (Nat × Nat)
  | atEndOf block =>
    (Placement.closingBrace? block).map fun close => (Placement.blockContentEnd source block close, close)
  | before statement =>
    if Placement.isBlank (lead source statement) then some (Layout.lineStart source statement.start, statement.start)
    else some (statement.start, statement.start)

/-- Whatever the block, the stretch that is replaced is the same. -/
private theorem span?_of_edit? {source header : String} {lines : List String} {o : Opening} {e : Edit}
    (h : o.edit? source header lines = some e) : o.span? source = some (e.start, e.stop) := by
  cases o with
  | atEndOf block =>
    obtain ⟨close, hclose, h⟩ := Option.bind_eq_some_iff.1 h
    obtain rfl := Option.some.inj h
    rw [span?, hclose]
    rfl
  | before statement =>
    obtain rfl := Option.some.inj h
    unfold span? Placement.blockBeforeStatement lead
    dsimp only
    split
    · rfl
    · rfl

/-- Something is dropped from the end of a text exactly if its last character is to be dropped. -/
private theorem byteSize_dropEndWhile_lt_iff (p : Char → Bool) (cs : List Char) :
    byteSize (dropEndWhile p cs) < byteSize cs ↔ cs.getLast?.any p = true := by
  rcases List.eq_nil_or_concat cs with rfl | ⟨cs, c, rfl⟩
  · simp [dropEndWhile]
  · rw [List.concat_eq_append, dropEndWhile, List.reverse_append, List.reverse_singleton, List.singleton_append,
      List.dropWhile_cons]
    by_cases hc : p c = true
    · have hprefix := dropEndWhile_prefix p cs
      obtain ⟨rest, hrest⟩ := hprefix
      have hsize := congrArg byteSize hrest
      have hpos : 0 < byteSize [c] := c.utf8Size_pos
      rw [byteSize_append] at hsize
      rw [if_pos hc, byteSize_append]
      simp only [List.getLast?_append, List.getLast?_singleton, Option.some_or, Option.any_some, hc, iff_true]
      change byteSize (dropEndWhile p cs) < _
      omega
    · simp [hc]

/-- The stretch that is replaced is not empty exactly if there is room. -/
theorem lt_iff_hasRoom {source : String} {o : Opening} (h : o.IsIn source) {p q : Nat}
    (hspan : o.span? source = some (p, q)) : p < q ↔ o.hasRoom source = true := by
  cases o with
  | atEndOf block =>
    obtain ⟨close, hclose, -, -, hcut⟩ := h
    rw [span?, hclose, Option.map_some, Option.some.injEq, Prod.mk.injEq] at hspan
    obtain ⟨rfl, rfl⟩ := hspan
    have hblank := byteSize_dropEndWhile_lt_iff isBlank (takeBytes close source.toList)
    rw [byteSize_takeBytes hcut] at hblank
    rw [hasRoom, hclose, Option.any_some, Bool.and_eq_true, decide_eq_true_eq, ← hblank, Placement.blockContentEnd,
      Nat.max_lt, and_comm]
    rfl
  | before statement =>
    have hle := Layout.lineStart_le h
    have hsize : byteSize (lead source statement).toList =
        statement.start - Layout.lineStart source statement.start := by
      rw [lead, Placement.between, String.toList_ofList]
      exact byteSize_between (Layout.isBoundary_lineStart _ _) h hle
    rw [hasRoom, Bool.and_eq_true, bne_iff_ne]
    rw [span?] at hspan
    split at hspan
    · next hblank =>
      obtain ⟨rfl, rfl⟩ := Prod.mk.inj (Option.some.inj hspan)
      simp only [hblank, and_true]
      constructor
      · intro hlt hnil
        rw [hnil] at hsize
        change 0 = _ at hsize
        omega
      · intro hne
        by_contra hnot
        have hnil := eq_nil_of_byteSize (hsize.trans (by omega))
        exact hne (String.toList_eq_nil_iff.1 hnil)
    · next hblank =>
      obtain ⟨rfl, rfl⟩ := Prod.mk.inj (Option.some.inj hspan)
      simp [hblank]

/-- The stretch that is replaced lies between two characters of the text. -/
private theorem fits_of_edit? {source header : String} {lines : List String} {o : Opening} (h : o.IsIn source)
    {e : Edit} (he : o.edit? source header lines = some e) : e.Fits source.toList := by
  have hspan := span?_of_edit? he
  suffices hfits : ∀ p q, o.span? source = some (p, q) →
      p ≤ q ∧ isBoundary source.toList p = true ∧ isBoundary source.toList q = true by
    obtain ⟨hle, hstart, hstop⟩ := hfits e.start e.stop hspan
    exact ⟨hle, hstart, hstop⟩
  intro p q hspan
  cases o with
  | atEndOf block =>
    obtain ⟨close, hclose, hle, hopening, hcut⟩ := h
    rw [span?, hclose] at hspan
    obtain ⟨rfl, rfl⟩ := Prod.mk.inj (Option.some.inj hspan)
    have hend := Placement.contentEnd_le hcut
    exact ⟨Nat.max_le.2 ⟨hend, hle⟩, Placement.isBoundary_blockContentEnd hopening close, hcut⟩
  | before statement =>
    rw [span?] at hspan
    split at hspan
    · obtain ⟨rfl, rfl⟩ := Prod.mk.inj (Option.some.inj hspan)
      exact ⟨Layout.lineStart_le h, Layout.isBoundary_lineStart _ _, h⟩
    · obtain ⟨rfl, rfl⟩ := Prod.mk.inj (Option.some.inj hspan)
      exact ⟨Nat.le_refl _, h, h⟩

/-- Two edits that put blocks at one place overlap exactly if there are blanks to replace, and just then no batch
applies both of them; where there are no blanks, it writes one block behind the other. -/
theorem overlaps_iff_hasRoom {source : String} {o : Opening} (h : o.IsIn source) {header header' : String}
    {lines lines' : List String} {e f : Edit} (he : o.edit? source header lines = some e)
    (hf : o.edit? source header' lines' = some f) :
    (e.overlaps f = true ↔ o.hasRoom source = true) ∧
    ((∀ (risky : Bool) (before middle : List Suggestion) (s s' : Suggestion), e ∈ s.edits → f ∈ s'.edits →
        Batch.IsApplied source.toList risky before s →
        ¬Batch.IsApplied source.toList risky (before ++ s :: middle) s') ↔ o.hasRoom source = true) ∧
    (o.hasRoom source = false → ∀ (risky : Bool) (message message' : String),
      Batch.run source [Batch.single message e, Batch.single message' f] risky =
        .ok ⟨String.ofList (takeBytes e.stop source.toList ++ (e.replacement.toList ++ f.replacement.toList ++
          dropBytes e.stop source.toList)), 2, 0, 0⟩) := by
  have hspan := span?_of_edit? he
  have hspan' := hspan.symm.trans (span?_of_edit? hf)
  obtain ⟨hstart, hstop⟩ := Prod.mk.inj (Option.some.inj hspan')
  have hoverlaps : e.overlaps f = true ↔ o.hasRoom source = true :=
    (Edit.overlaps_iff_lt hstart.symm hstop.symm).trans (lt_iff_hasRoom h hspan)
  have hfits := fits_of_edit? h he
  have hfits' := fits_of_edit? h hf
  refine ⟨hoverlaps, ⟨fun hone => ?_, fun hroom => ?_⟩, fun hroom => ?_⟩
  · by_contra hroom
    have hfree : e.overlaps f = false := by rwa [← Bool.not_eq_true, hoverlaps]
    refine hone false [] [] (Batch.single "" e) (Batch.single "" f) List.mem_cons_self List.mem_cons_self ?_ ?_
    · show (Batch.select _ _ [Batch.single "" e]).applied = 0 + 1
      rw [Batch.select_single hfits]
    · show (Batch.select _ _ [Batch.single "" e, Batch.single "" f]).applied =
        (Batch.select _ _ [Batch.single "" e]).applied + 1
      rw [Batch.select_pair hfits hfits' hfree, Batch.select_single hfits]
  · intro risky before middle s s' hs hs' happlied
    exact Batch.not_isApplied_of_overlaps hs hs' (hoverlaps.2 hroom) happlied
  · intro risky message message'
    have hfree : e.overlaps f = false := by rw [← Bool.not_eq_true, hoverlaps, hroom]; decide
    have hempty : e.start = e.stop := by
      have hlt := (lt_iff_hasRoom h hspan).not
      rw [hroom] at hlt
      have := hfits.le
      have := hlt.2 (by decide)
      omega
    have hedits : ∀ d ∈ [e, f], d.start = e.stop ∧ d.stop = e.stop := by
      simp only [List.mem_cons, List.not_mem_nil, or_false, forall_eq_or_imp, forall_eq]
      exact ⟨⟨hempty, trivial⟩, by omega, by omega⟩
    rw [Batch.run_eq, Batch.select_pair hfits hfits' hfree, Edit.applyAll_insertions hfits.stop hedits]
    simp [Except.map]

end Opening

namespace Sample

open Sketch

/-- `{ }` -/
def spacedBlock : Node := .root 0 ((ofKind .block [(token "\x7b").spaced, token "\x7d"]).tree 0)

/-- `{}` -/
def emptyBlock : Node := .root 0 ((block []).tree 0)

/-- The second of the statements `F();G();` -/
def secondCall : Node := .root 0 ((statement (call (name "G") [])).tree 4)

/-- `class C{Stream a=new MemoryStream();Stream b=new MemoryStream();void Dispose(bool disposing){}}` -/
def owning : Document :=
  document "C.cs"
    [classOf "C"
      [fieldOf [] "Stream" "a" (create "MemoryStream"), fieldOf [] "Stream" "b" (create "MemoryStream"),
       method [] void "Dispose"
        [ofKind .parameter
          [((leaf (.kind .predefinedType) "bool").inField .type).spaced, (name "disposing").inField .name]] []]]

/-- The block that releases a member of `owning`. -/
def releasing (member : String) : Edit :=
  .insertion 93 ("\n    if (disposing)\n    \x7b\n        this." ++ member ++ "?.Dispose();\n    \x7d\n")

end Sample

namespace Opening

/-- The theorem where a blank stands between the braces of a block. -/
theorem overlaps_iff_hasRoom_spaced :
    ∃ e f, (atEndOf Sample.spacedBlock).edit? "\x7b \x7d" "if (a)" ["x();"] = some e ∧
      (atEndOf Sample.spacedBlock).edit? "\x7b \x7d" "if (b)" [] = some f ∧ e.overlaps f = true := by
  have hin : (atEndOf Sample.spacedBlock).IsIn "\x7b \x7d" :=
    ⟨2, by decide +kernel, by decide +kernel, by decide +kernel, by decide +kernel⟩
  exact ⟨_, _, rfl, rfl, (overlaps_iff_hasRoom hin rfl rfl).1.2 (by decide +kernel)⟩

/-- Blocks at one place that do not overlap: between braces with nothing in between, and in front of a statement behind
another one. A program whose method has such a body gets two blocks at once, one for each member that it should
release. -/
theorem run_writes_both :
    (∃ e f, (atEndOf Sample.emptyBlock).edit? "\x7b\x7d" "if (a)" ["x();"] = some e ∧
      (atEndOf Sample.emptyBlock).edit? "\x7b\x7d" "if (b)" [] = some f ∧ e.overlaps f = false) ∧
    (∃ e f, (before Sample.secondCall).edit? "F();G();" "if (a)" ["x();"] = some e ∧
      (before Sample.secondCall).edit? "F();G();" "if (b)" [] = some f ∧ e.overlaps f = false) ∧
    ((Engine.default.reports (Compilation.ofDocuments [Sample.owning]).model (.root 0 Sample.owning.tree)).map
      (List.filterMap fun r => r.suggestion?.map (·.edits))) = some [[Sample.releasing "a"], [Sample.releasing "b"]] ∧
    Batch.run Sample.owning.text
        [Batch.single "" (Sample.releasing "a"), Batch.single "" (Sample.releasing "b")] false =
      .ok ⟨"class C\x7bStream a=new MemoryStream();Stream b=new MemoryStream();void Dispose(bool disposing)\x7b\n" ++
        "    if (disposing)\n    \x7b\n        this.a?.Dispose();\n    \x7d\n\n" ++
        "    if (disposing)\n    \x7b\n        this.b?.Dispose();\n    \x7d\n\x7d\x7d", 2, 0, 0⟩ := by
  refine ⟨⟨_, _, rfl, rfl, by decide +kernel⟩, ⟨_, _, rfl, rfl, by decide +kernel⟩, by decide +kernel, ?_⟩
  have hcut : Text.isBoundary Sample.owning.text.toList 93 = true := by decide +kernel
  have hfits : ∀ member, (Sample.releasing member).Fits Sample.owning.text.toList :=
    fun member => Edit.fits_insertion hcut _
  rw [Batch.run_eq, Batch.select_pair (hfits "a") (hfits "b") rfl, Edit.applyAll_insertions hcut]
  · refine congrArg (fun text => (Except.ok ⟨text, 2, 0, 0⟩ : Except EditError Batch.Outcome)) ?_
    decide +kernel
  · intro e he
    simp only [List.mem_cons, List.not_mem_nil, or_false] at he
    rcases he with rfl | rfl
    · exact ⟨rfl, rfl⟩
    · exact ⟨rfl, rfl⟩

end Opening

end Disposal
