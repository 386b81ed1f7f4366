import Disposal.Proofs.Declarations
import Disposal.Proofs.Edits
import Disposal.Rule.Placement

/-!
# Cutting a text for an edit

Edits are built from stretches of the text: the start of a line, its indentation, what stands in front of a closing
brace. A `Plan` says which edit is to be built at which nodes. `Plan.edit?` builds it, and `Plan.sliced?` builds it as
well but gives up where a stretch would cut a character. In a tree whose spans are nested and lie on boundaries, it
never gives up. The texts that are put in may hold texts of nodes; these are cut at the ends of the nodes.

* `Layout.isBoundary_lineStart`, `Placement.isBoundary_contentEnd`: offsets that are computed from the text;
* `Plan.fits`: what is built fits the text;
* `Plan.sliced?_eq_edit?`: no stretch cuts a character.
-/

namespace Disposal

/-! ### Computed offsets -/

namespace Text

theorem dropEndWhile_prefix (p : Char → Bool) (cs : List Char) : dropEndWhile p cs <+: cs := by
  have h := List.reverse_prefix.2 (List.dropWhile_suffix (l := cs.reverse) p)
  rwa [List.reverse_reverse] at h

private theorem isBoundary_dropEndWhile (p : Char → Bool) (cs : List Char) (k : Nat) :
    isBoundary cs (byteSize (dropEndWhile p (takeBytes k cs))) = true := by
  obtain ⟨rest, hrest⟩ := dropEndWhile_prefix p (takeBytes k cs)
  refine isBoundary_iff.2 ⟨_, rest ++ dropBytes k cs, ?_, rfl⟩
  rw [← List.append_assoc, hrest, takeBytes_append_dropBytes]

private theorem byteSize_dropEndWhile_le (p : Char → Bool) {cs : List Char} {k : Nat} (hk : isBoundary cs k = true) :
    byteSize (dropEndWhile p (takeBytes k cs)) ≤ k := by
  obtain ⟨rest, hrest⟩ := dropEndWhile_prefix p (takeBytes k cs)
  have hsize := congrArg byteSize hrest
  rw [byteSize_append, byteSize_takeBytes hk] at hsize
  omega

private theorem isBoundary_byteSize (cs : List Char) : isBoundary cs (byteSize cs) = true :=
  isBoundary_iff.2 ⟨cs, [], by simp, rfl⟩

theorem slice?_eq_some {source : String} {start stop : Nat} (hle : start ≤ stop)
    (hstart : isBoundary source.toList start = true) (hstop : isBoundary source.toList stop = true) :
    slice? source start stop = some (Placement.between source start stop) := by
  simp only [slice?, hle, hstart, hstop, decide_true, Bool.and_self, if_true]
  rfl

/-- What stands in front of an offset. -/
private theorem slice?_zero {source : String} {stop : Nat} (hstop : isBoundary source.toList stop = true) :
    slice? source 0 stop = some (String.ofList (takeBytes stop source.toList)) := by
  rw [slice?_eq_some (Nat.zero_le _) (isBoundary_zero _) hstop, Placement.between, Nat.sub_zero, dropBytes_zero]

/-- What stands behind an offset. -/
private theorem slice?_byteSize {source : String} {start : Nat} (hstart : isBoundary source.toList start = true) :
    slice? source start (byteSize source.toList) = some (String.ofList (dropBytes start source.toList)) := by
  rw [slice?_eq_some (le_byteSize_of_isBoundary hstart) hstart (isBoundary_byteSize _), Placement.between,
    ← byteSize_dropBytes hstart]
  have h := takeBytes_byteSize (dropBytes start source.toList) []
  rw [List.append_nil] at h
  rw [h]

/-- The first characters of a text that satisfy `p`. -/
private theorem slice?_takeWhile (p : Char → Bool) (cs : List Char) :
    slice? (String.ofList cs) 0 (byteSize (cs.takeWhile p)) = some (String.ofList (cs.takeWhile p)) := by
  have hpieces := List.takeWhile_append_dropWhile (p := p) (l := cs)
  have htake := takeBytes_byteSize (cs.takeWhile p) (cs.dropWhile p)
  rw [hpieces] at htake
  rw [slice?_zero, String.toList_ofList, htake]
  rw [String.toList_ofList]
  exact isBoundary_iff.2 ⟨_, _, hpieces.symm, rfl⟩

end Text

theorem Layout.isBoundary_lineStart (source : String) (offset : Nat) :
    Text.isBoundary source.toList (lineStart source offset) = true :=
  Text.isBoundary_dropEndWhile _ _ _

theorem Layout.lineStart_le {source : String} {offset : Nat} (h : Text.isBoundary source.toList offset = true) :
    lineStart source offset ≤ offset :=
  Text.byteSize_dropEndWhile_le _ h

theorem Placement.isBoundary_contentEnd (source : String) (offset : Nat) :
    Text.isBoundary source.toList (contentEnd source offset) = true :=
  Text.isBoundary_dropEndWhile _ _ _

theorem Placement.contentEnd_le {source : String} {offset : Nat} (h : Text.isBoundary source.toList offset = true) :
    contentEnd source offset ≤ offset :=
  Text.byteSize_dropEndWhile_le _ h

theorem Placement.isBoundary_blockContentEnd {source : String} {block : Node}
    (h : Text.isBoundary source.toList (block.start + 1) = true) (close : Nat) :
    Text.isBoundary source.toList (blockContentEnd source block close) = true := by
  unfold blockContentEnd
  rcases Nat.le_total (contentEnd source close) (block.start + 1) with hle | hle
  · rwa [Nat.max_eq_right hle]
  · rw [Nat.max_eq_left hle]
    exact isBoundary_contentEnd _ _

/-! ### Stretches that are checked -/

namespace Sliced

/-- `Layout.lineStart`, if the offset cuts no character. -/
def lineStart? (source : String) (offset : Nat) : Option Nat := do
  let front ← Text.slice? source 0 (min offset (Text.byteSize source.toList))
  return Text.byteSize (Text.dropEndWhile (· ≠ '\n') front.toList)

/-- `Layout.indentationAt`, if no stretch cuts a character. -/
def indentationAt? (source : String) (offset : Nat) : Option String := do
  let lineStart ← lineStart? source offset
  let rest ← Text.slice? source lineStart (Text.byteSize source.toList)
  Text.slice? rest 0 (Text.byteSize (rest.toList.takeWhile fun c => c = ' ' || c = '\t'))

/-- `Placement.contentEnd`, if the offset cuts no character. -/
def contentEnd? (source : String) (offset : Nat) : Option Nat := do
  let front ← Text.slice? source 0 offset
  return Text.byteSize (Text.trimEnd front.toList)

variable {source : String} {offset : Nat} (h : Text.isBoundary source.toList offset = true)

include h

private theorem lineStart?_eq : lineStart? source offset = some (Layout.lineStart source offset) := by
  have hmin : min offset (Text.byteSize source.toList) = offset := Nat.min_eq_left (Text.le_byteSize_of_isBoundary h)
  rw [lineStart?, hmin, Text.slice?_zero h]
  simp [Layout.lineStart]

private theorem lead?_eq :
    Text.slice? source (Layout.lineStart source offset) offset =
      some (Placement.between source (Layout.lineStart source offset) offset) :=
  Text.slice?_eq_some (Layout.lineStart_le h) (Layout.isBoundary_lineStart source offset) h

private theorem contentEnd?_eq : contentEnd? source offset = some (Placement.contentEnd source offset) := by
  rw [contentEnd?, Text.slice?_zero h]
  simp [Placement.contentEnd]

private theorem indentationAt?_eq : indentationAt? source offset = some (Layout.indentationAt source offset) := by
  rw [indentationAt?, lineStart?_eq h]
  simp only [Option.bind_eq_bind, Option.bind_some,
    Text.slice?_byteSize (Layout.isBoundary_lineStart source offset), String.toList_ofList, Text.slice?_takeWhile,
    Layout.indentationAt]

end Sliced

/-! ### Trees over a text -/

namespace Node

/-- Whether the span of a node starts and ends between characters of a text. -/
def isCutFrom (source : String) (n : Node) : Bool :=
  n.start ≤ n.stop && Text.isBoundary source.toList n.start && Text.isBoundary source.toList n.stop

/-- Whether the spans of the children lie in that of the node. -/
def holdsChildren (n : Node) : Bool := n.children.all fun k => n.start ≤ k.start && k.stop ≤ n.stop

/-- Whether the node starts with a brace of one byte, which ends before any closing brace. -/
def opensWithBrace (n : Node) : Bool :=
  match n.children with
  | [] => false
  | opening :: _ =>
    opening.isToken "\x7b" && opening.start == n.start && opening.stop == n.start + 1 &&
      n.children.all fun k => !k.isToken "\x7d" || opening.stop ≤ k.start

private theorem isCutFrom_iff {source : String} {n : Node} :
    n.isCutFrom source = true ↔ n.start ≤ n.stop ∧ Text.isBoundary source.toList n.start = true ∧
      Text.isBoundary source.toList n.stop = true := by
  simp only [isCutFrom, Bool.and_eq_true, decide_eq_true_eq, and_assoc]

private theorem exists_opening {n : Node} (h : n.opensWithBrace = true) :
    (∃ k ∈ n.children, k.stop = n.start + 1) ∧ ∀ k ∈ n.children, k.isToken "\x7d" = true → n.start + 1 ≤ k.start := by
  unfold opensWithBrace at h
  split at h
  · cases h
  · next opening rest hchildren =>
    simp only [Bool.and_eq_true, beq_iff_eq, List.all_eq_true, Bool.or_eq_true, Bool.not_eq_true',
      decide_eq_true_eq] at h
    obtain ⟨⟨-, hstop⟩, hclose⟩ := h
    refine ⟨⟨opening, by rw [hchildren]; exact List.mem_cons_self, hstop⟩, ?_⟩
    intro k hk hbrace
    rcases hclose k hk with h | h
    · rw [hbrace] at h
      cases h
    · rwa [← hstop]

end Node

namespace Compilation

/-- The trees of a compilation lie over the texts of their documents: spans are nested and end between characters, and
blocks open with a brace. -/
structure IsLaidOut (c : Compilation) : Prop where
  cut : ∀ n, c.HasPlace n → n.isCutFrom (c.sourceOf n) = true
  nested : ∀ n, c.HasPlace n → n.holdsChildren = true
  braces : ∀ n, c.HasPlace n → n.is .block = true → n.opensWithBrace = true

/-- The node is a place in the document of another one. -/
structure IsBeside (c : Compilation) (a n : Node) : Prop where
  place : c.HasPlace n
  doc : n.doc = a.doc

theorem IsBeside.child {c : Compilation} {a n k : Node} (h : c.IsBeside a n) (hk : k ∈ n.children) : c.IsBeside a k :=
  ⟨.child h.place hk, (Node.doc_of_mem_children hk).trans h.doc⟩

theorem IsBeside.parent {c : Compilation} {a n p : Node} (h : c.IsBeside a n) (hp : n.parent? = some p) :
    c.IsBeside a p := by
  obtain ⟨hplace, hn⟩ := h.place.of_parent? hp
  exact ⟨hplace, (Node.doc_of_mem_children hn).symm.trans h.doc⟩

theorem sourceOf_eq {c : Compilation} {a n : Node} (h : n.doc = a.doc) : c.sourceOf n = c.sourceOf a := by
  unfold sourceOf
  rw [h]

theorem IsLaidOut.cutBeside {c : Compilation} (hc : c.IsLaidOut) {a n : Node} (h : c.IsBeside a n) :
    n.start ≤ n.stop ∧ Text.isBoundary (c.sourceOf a).toList n.start = true ∧
      Text.isBoundary (c.sourceOf a).toList n.stop = true := by
  rw [← sourceOf_eq h.doc]
  exact Node.isCutFrom_iff.1 (hc.cut n h.place)

end Compilation

/-! ### Plans -/

theorem Edit.fits_insertion {source : List Char} {offset : Nat} (h : Text.isBoundary source offset = true)
    (text : String) : (insertion offset text).Fits source := ⟨Nat.le_refl _, h, h⟩

/-- What is to be put where. -/
inductive Plan where
  /-- A text in front of a node. -/
  | inFront (n : Node) (text : String)
  /-- A text in place of a node. -/
  | replacing (n : Node) (text : String)
  | before (statement : Node) (text : String)
  | after (statement : Node) (text : String)
  | atEnd (block : Node) (text : String)
  | headedAtEnd (block : Node) (header : String) (lines : List String)
  | headedBefore (statement : Node) (header : String) (lines : List String)
  | inArrow (decl arrow : Node) (lines : List String)

namespace Plan

/-- The edit that a plan leads to. -/
def edit? (source : String) : Plan → Option Edit
  | inFront n text => some (.insertion n.start text)
  | replacing n text => some ⟨n.start, n.stop, text⟩
  | before statement text => some (Placement.beforeStatement source statement text)
  | after statement text => some (Placement.afterStatement source statement text)
  | atEnd block text => Placement.atBlockEnd? source block text
  | headedAtEnd block header lines => Placement.blockAtBlockEnd? source block header lines
  | headedBefore statement header lines => some (Placement.blockBeforeStatement source statement header lines)
  | inArrow decl arrow lines => Placement.inArrowBody? source decl arrow lines

/-- The edit that a plan leads to, if no stretch that it is built from cuts a character. -/
def sliced? (source : String) : Plan → Option Edit
  | inFront n text => some (.insertion n.start text)
  | replacing n text => some ⟨n.start, n.stop, text⟩
  | before statement text => do
    let lineStart ← Sliced.lineStart? source statement.start
    let lead ← Text.slice? source lineStart statement.start
    return if Placement.isBlank lead then .insertion lineStart (lead ++ text ++ "\n")
      else .insertion statement.start (text ++ " ")
  | after statement text => do
    let indent ← Sliced.indentationAt? source statement.start
    return .insertion statement.stop ("\n" ++ indent ++ text)
  | atEnd block text => do
    let close ← Placement.closingBrace? block
    let lineStart ← Sliced.lineStart? source close
    let lead ← Text.slice? source lineStart close
    if Placement.isBlank lead && block.start < lineStart then
      return .insertion lineStart (lead ++ Layout.unit source ++ text ++ "\n")
    else
      let content ← Sliced.contentEnd? source close
      return ⟨max content (block.start + 1), close, " " ++ text ++ " "⟩
  | headedAtEnd block header lines => do
    let close ← Placement.closingBrace? block
    let lineStart ← Sliced.lineStart? source close
    let lead ← Text.slice? source lineStart close
    let indent ← if Placement.isBlank lead then some lead else Sliced.indentationAt? source block.start
    let content ← Sliced.contentEnd? source close
    let unit := Layout.unit source
    return ⟨max content (block.start + 1), close,
      "\n" ++ Placement.headedBlock (indent ++ unit) unit header lines ++ indent⟩
  | headedBefore statement header lines => do
    let lineStart ← Sliced.lineStart? source statement.start
    let indent ← Sliced.indentationAt? source statement.start
    let lead ← Text.slice? source lineStart statement.start
    let text := Placement.headedBlock indent (Layout.unit source) header lines ++ "\n" ++ indent
    return if Placement.isBlank lead then ⟨lineStart, statement.start, text⟩ else .insertion statement.start text
  | inArrow decl arrow lines => do
    let clause ← arrow.parent?.filter (·.is .arrowExpressionClause)
    let stop := match decl.children.find? fun c => c.isToken ";" && clause.stop ≤ c.start with
      | some semicolon => semicolon.stop
      | none => clause.stop
    let content ← Sliced.contentEnd? source clause.start
    let indent ← Sliced.indentationAt? source decl.start
    let inner := indent ++ Layout.unit source
    -- the text of the expression is a stretch, too
    let _ ← Text.slice? source arrow.start arrow.stop
    let body := String.join (((arrow.text ++ ";") :: lines).map fun line => inner ++ line ++ "\n")
    return ⟨content, stop, "\n" ++ indent ++ "\x7b\n" ++ body ++ indent ++ "\x7d"⟩

/-- The nodes of a plan are places in the document of a node, and what stands for a block is one. -/
def IsIn (c : Compilation) (a : Node) : Plan → Prop
  | inFront n _ | replacing n _ | before n _ | after n _ | headedBefore n _ _ => c.IsBeside a n
  | atEnd block _ | headedAtEnd block _ _ => c.IsBeside a block ∧ block.is .block = true
  | inArrow decl arrow _ => c.IsBeside a decl ∧ c.IsBeside a arrow

end Plan

section

variable {c : Compilation} {a : Node} (hc : c.IsLaidOut)

include hc

/-- The closing brace of a block, and where its content ends. -/
theorem Compilation.IsLaidOut.closing {block : Node} (hblock : c.IsBeside a block) (hk : block.is .block = true)
    {close : Nat} (hclose : Placement.closingBrace? block = some close) :
    Text.isBoundary (c.sourceOf a).toList close = true ∧
      Text.isBoundary (c.sourceOf a).toList (Placement.blockContentEnd (c.sourceOf a) block close) = true ∧
      Placement.blockContentEnd (c.sourceOf a) block close ≤ close := by
  obtain ⟨brace, hbrace, rfl⟩ := Option.map_eq_some_iff.1 hclose
  have hmem := List.mem_reverse.1 (List.mem_of_find?_eq_some hbrace)
  obtain ⟨⟨opening, hopening, hstop⟩, hafter⟩ := Node.exists_opening (hc.braces block hblock.place hk)
  have hcut := (hc.cutBeside (hblock.child hmem)).2.1
  have hfirst := (hc.cutBeside (hblock.child hopening)).2.2
  rw [hstop] at hfirst
  have htoken := List.find?_some (p := fun k : Node => k.isToken "\x7d") hbrace
  exact ⟨hcut, Placement.isBoundary_blockContentEnd hfirst _,
    Nat.max_le.2 ⟨Placement.contentEnd_le hcut, hafter brace hmem htoken⟩⟩

/-- What is built fits the text. -/
theorem Plan.fits {p : Plan} (hp : p.IsIn c a) {e : Edit} (he : p.edit? (c.sourceOf a) = some e) :
    e.Fits (c.sourceOf a).toList := by
  have hline := fun offset => Layout.isBoundary_lineStart (c.sourceOf a) offset
  cases p with
  | inFront n text =>
    obtain rfl := Option.some.inj he
    exact Edit.fits_insertion (hc.cutBeside hp).2.1 text
  | replacing n text =>
    obtain rfl := Option.some.inj he
    exact ⟨(hc.cutBeside hp).1, (hc.cutBeside hp).2.1, (hc.cutBeside hp).2.2⟩
  | before statement text =>
    obtain rfl := Option.some.inj he
    unfold Placement.beforeStatement
    dsimp only
    split
    · exact Edit.fits_insertion (hline _) _
    · exact Edit.fits_insertion (hc.cutBeside hp).2.1 _
  | after statement text =>
    obtain rfl := Option.some.inj he
    exact Edit.fits_insertion (hc.cutBeside hp).2.2 _
  | atEnd block text =>
    obtain ⟨close, hclose, he⟩ := Option.bind_eq_some_iff.1 he
    obtain ⟨hstop, hstart, hle⟩ := hc.closing hp.1 hp.2 hclose
    dsimp only at he
    split at he
    · obtain rfl := Option.some.inj he
      exact Edit.fits_insertion (hline _) _
    · obtain rfl := Option.some.inj he
      exact ⟨hle, hstart, hstop⟩
  | headedAtEnd block header lines =>
    obtain ⟨close, hclose, he⟩ := Option.bind_eq_some_iff.1 he
    obtain ⟨hstop, hstart, hle⟩ := hc.closing hp.1 hp.2 hclose
    obtain rfl := Option.some.inj he
    exact ⟨hle, hstart, hstop⟩
  | headedBefore statement header lines =>
    obtain rfl := Option.some.inj he
    have hstart := (hc.cutBeside hp).2.1
    unfold Placement.blockBeforeStatement
    dsimp only
    split
    · exact ⟨Layout.lineStart_le hstart, hline _, hstart⟩
    · exact Edit.fits_insertion hstart _
  | inArrow decl arrow lines =>
    obtain ⟨clause, hclause, he⟩ := Option.bind_eq_some_iff.1 he
    have hclause := hp.2.parent (Option.filter_eq_some_iff.1 hclause).1
    obtain ⟨hle, hstart, hstop⟩ := hc.cutBeside hclause
    have hcontent := Placement.contentEnd_le hstart
    obtain rfl := Option.some.inj he
    split
    · next semicolon hsemicolon =>
      have hmem := List.mem_of_find?_eq_some hsemicolon
      obtain ⟨hle', -, hstop'⟩ := hc.cutBeside (hp.1.child hmem)
      have hbehind := List.find?_some hsemicolon
      simp only [Bool.and_eq_true, decide_eq_true_eq] at hbehind
      refine ⟨?_, Placement.isBoundary_contentEnd _ _, hstop'⟩
      show Placement.contentEnd (c.sourceOf a) clause.start ≤ semicolon.stop
      omega
    · exact ⟨Nat.le_trans hcontent hle, Placement.isBoundary_contentEnd _ _, hstop⟩

/-- No stretch that an edit is built from cuts a character. -/
theorem Plan.sliced?_eq_edit? {p : Plan} (hp : p.IsIn c a) : p.sliced? (c.sourceOf a) = p.edit? (c.sourceOf a) := by
  cases p with
  | inFront n text => rfl
  | replacing n text => rfl
  | before statement text =>
    have hstart := (hc.cutBeside hp).2.1
    simp only [sliced?, edit?, Sliced.lineStart?_eq hstart, Sliced.lead?_eq hstart, Option.bind_eq_bind,
      Option.bind_some, Option.pure_def, Placement.beforeStatement]
  | after statement text =>
    have hstart := (hc.cutBeside hp).2.1
    simp only [sliced?, edit?, Sliced.indentationAt?_eq hstart, Option.bind_eq_bind, Option.bind_some, Option.pure_def,
      Placement.afterStatement]
  | atEnd block text =>
    simp only [sliced?, edit?, Placement.atBlockEnd?]
    cases hclose : Placement.closingBrace? block with
    | none => simp only [Option.bind_eq_bind, Option.bind_none]
    | some close =>
      have hcut := (hc.closing hp.1 hp.2 hclose).1
      simp only [Sliced.lineStart?_eq hcut, Sliced.lead?_eq hcut, Sliced.contentEnd?_eq hcut, Option.bind_eq_bind,
        Option.bind_some, Placement.blockContentEnd]
  | headedAtEnd block header lines =>
    simp only [sliced?, edit?, Placement.blockAtBlockEnd?]
    cases hclose : Placement.closingBrace? block with
    | none => simp only [Option.bind_eq_bind, Option.bind_none]
    | some close =>
      have hcut := (hc.closing hp.1 hp.2 hclose).1
      have hstart := (hc.cutBeside hp.1).2.1
      simp only [Sliced.lineStart?_eq hcut, Sliced.lead?_eq hcut, Sliced.contentEnd?_eq hcut,
        Sliced.indentationAt?_eq hstart, Option.bind_eq_bind, Option.bind_some, Placement.blockContentEnd]
      split <;> rfl
  | headedBefore statement header lines =>
    have hstart := (hc.cutBeside hp).2.1
    simp only [sliced?, edit?, Sliced.lineStart?_eq hstart, Sliced.lead?_eq hstart, Sliced.indentationAt?_eq hstart,
      Option.bind_eq_bind, Option.bind_some, Option.pure_def, Placement.blockBeforeStatement]
  | inArrow decl arrow lines =>
    simp only [sliced?, edit?, Placement.inArrowBody?]
    cases hclause : arrow.parent?.filter (·.is .arrowExpressionClause) with
    | none => simp only [Option.bind_eq_bind, Option.bind_none]
    | some clause =>
      have hstart := (hc.cutBeside (hp.2.parent (Option.filter_eq_some_iff.1 hclause).1)).2.1
      obtain ⟨hle, harrow, harrow'⟩ := hc.cutBeside hp.2
      cases hfind : decl.children.find? fun c => c.isToken ";" && clause.stop ≤ c.start <;>
        simp only [hfind, Sliced.contentEnd?_eq hstart, Sliced.indentationAt?_eq (hc.cutBeside hp.1).2.1,
          Text.slice?_eq_some hle harrow harrow', Option.bind_eq_bind, Option.bind_some]

end

end Disposal
