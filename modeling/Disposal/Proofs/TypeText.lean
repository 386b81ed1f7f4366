import Disposal.Proofs.Patches
import Disposal.TypeRef

/-!
# The text of a type

A type is written with brackets of three sorts and commas. Where the names in it are free of these marks its text can
be read again in one way only: what a text begins with decides what is read, and the brackets behind a type say into
how many arrays it goes.

* `TypeRef.parse`, `TypeRef.parseAll`: reading a type, or several with commas between them, from the front of a text;
* `TypeRef.parse_text_append`: reading the text of a type, whatever stands behind it;
* `TypeRef.ofNotation?_text`: reading undoes writing;
* `TypeRef.eq_of_text_eq`: types with one text are equal.
-/

namespace Disposal.TypeRef

/-! ### Names in a type -/

/-- The marks of the notation. -/
def marks : List Char := ['<', '>', '(', ')', '[', ']', ',', '?', ' ']

/-- Whether a character can stand in a name. -/
def isNameChar (c : Char) : Bool := !marks.contains c

/-- A name that the notation cannot take for something else. -/
structure IsPlainName (name : String) : Prop where
  ne_empty : name ≠ ""
  ne_var : name ≠ "var"
  no_mark : ∀ c ∈ name.toList, c ∉ marks

private theorem isNameChar_iff {c : Char} : isNameChar c = true ↔ c ∉ marks := by
  simp [isNameChar]

instance (name : String) : Decidable (IsPlainName name) :=
  decidable_of_iff (name ≠ "" ∧ name ≠ "var" ∧ name.toList.all isNameChar = true) <| by
    simp only [List.all_eq_true, isNameChar_iff]
    exact ⟨fun h => ⟨h.1, h.2.1, h.2.2⟩, fun h => ⟨h.ne_empty, h.ne_var, h.no_mark⟩⟩

mutual

/-- The names in a type. -/
def names : TypeRef → List String
  | named name args => name :: allNames args
  | tuple items => allNames items
  | array item => names item
  | inferred | unknown => []

/-- The names in several types. -/
def allNames : List TypeRef → List String
  | [] => []
  | t :: ts => names t ++ allNames ts

end

private theorem IsPlainName.isNameChar {name : String} (h : IsPlainName name) :
    ∀ c ∈ name.toList, isNameChar c = true := by
  intro c hc
  exact isNameChar_iff.2 (h.no_mark c hc)

private theorem IsPlainName.exists_cons {name : String} (h : IsPlainName name) :
    ∃ c cs, name.toList = c :: cs ∧ c ∉ marks := by
  cases hname : name.toList with
  | nil => exact absurd (String.toList_eq_nil_iff.1 hname) h.ne_empty
  | cons c cs => exact ⟨c, cs, rfl, h.no_mark c (by rw [hname]; exact List.mem_cons_self)⟩

/-! ### Reading the notation -/

/-- Puts a type into as many arrays as there are bracket pairs behind it. -/
def inArrays (t : TypeRef) : List Char → TypeRef × List Char
  | '[' :: ']' :: cs => inArrays (array t) cs
  | cs => (t, cs)

mutual

/-- Reads a type from the front of a text, by so many nested steps at most. -/
def parse : Nat → List Char → Option (TypeRef × List Char)
  | 0, _ => none
  | _ + 1, '?' :: cs => some (inArrays unknown cs)
  | _ + 1, '(' :: ')' :: cs => some (inArrays (tuple []) cs)
  | fuel + 1, '(' :: cs => (parseAll fuel ')' cs).map fun (items, cs) => inArrays (tuple items) cs
  | fuel + 1, cs =>
    let word := String.ofList (cs.takeWhile isNameChar)
    let cs := cs.dropWhile isNameChar
    if word = "" then none
    else if word = "var" then some (inArrays inferred cs)
    else if cs.head? = some '<' then
      (parseAll fuel '>' cs.tail).map fun (args, cs) => inArrays (named word args) cs
    else some (inArrays (simple word) cs)

/-- Reads types with commas between them, and the bracket that closes them. -/
def parseAll : Nat → Char → List Char → Option (List TypeRef × List Char)
  | 0, _, _ => none
  | fuel + 1, close, cs =>
    match parse fuel cs with
    | some (t, ',' :: ' ' :: cs) => (parseAll fuel close cs).map fun (ts, cs) => (t :: ts, cs)
    | some (t, c :: cs) => if c = close then some ([t], cs) else none
    | _ => none

end

/-- Reads a text that holds a type and nothing else. -/
def ofNotation? (text : String) : Option TypeRef :=
  match parse (text.toList.length + 1) text.toList with
  | some (t, []) => some t
  | _ => none

private theorem parse_word {fuel : Nat} {word : String} (hword : IsPlainName word) {cs : List Char}
    (hcs : ∀ c ∈ cs.head?, isNameChar c = false) :
    parse (fuel + 1) (word.toList ++ cs) =
      if cs.head? = some '<' then
        (parseAll fuel '>' cs.tail).map fun (args, cs) => inArrays (named word args) cs
      else some (inArrays (simple word) cs) := by
  obtain ⟨htake, hdrop⟩ := Patch.takeWhile_dropWhile_append hword.isNameChar hcs
  obtain ⟨c, rest, hcons, hmark⟩ := hword.exists_cons
  have hne : ∀ mark ∈ marks, ∀ l, word.toList ++ cs ≠ mark :: l := by
    intro mark hm l h
    rw [hcons, List.cons_append, List.cons.injEq] at h
    exact hmark (h.1 ▸ hm)
  rw [parse.eq_5 _ _ (fun l => hne '?' (by decide) l) (fun l => hne '(' (by decide) _) (fun l => hne '(' (by decide) l),
    htake, hdrop, String.ofList_toList, if_neg hword.ne_empty, if_neg hword.ne_var]

/-- What stands behind a type where no name goes on and no arguments begin. -/
def EndsName (cs : List Char) : Prop := ∀ c ∈ cs.head?, isNameChar c = false ∧ c ≠ '<'

private theorem endsName_cons {c : Char} (hmark : c ∈ marks) (hne : c ≠ '<') (cs : List Char) : EndsName (c :: cs) := by
  intro c' hc
  rw [← Option.some.inj hc]
  exact ⟨by simpa [isNameChar] using hmark, hne⟩

/-- No type begins with a closing mark. -/
private theorem parse_close {fuel : Nat} {c : Char} (hmark : c ∈ marks) (hquestion : c ≠ '?') (hopen : c ≠ '(')
    (cs : List Char) : parse fuel (c :: cs) = none := by
  have hc : isNameChar c = false := by simpa [isNameChar] using hmark
  cases fuel with
  | zero => rfl
  | succ fuel =>
    rw [parse.eq_5 _ _ (by simp [hquestion]) (by simp [hopen]) (by simp [hopen]), List.takeWhile_cons, hc]
    rfl

private theorem parseAll_close {fuel : Nat} {close c : Char} (hmark : c ∈ marks) (hquestion : c ≠ '?') (hopen : c ≠ '(')
    (cs : List Char) : parseAll fuel close (c :: cs) = none := by
  cases fuel with
  | zero => rfl
  | succ fuel => rw [parseAll, parse_close hmark hquestion hopen]

private theorem parse_tuple {fuel : Nat} {items : List TypeRef} {cs cs' : List Char}
    (h : parseAll fuel ')' cs = some (items, cs')) :
    parse (fuel + 1) ('(' :: cs) = some (inArrays (tuple items) cs') := by
  have hne : ∀ l, cs ≠ ')' :: l := by
    rintro l rfl
    rw [parseAll_close (by decide) (by decide) (by decide)] at h
    cases h
  rw [parse.eq_4 _ _ hne, h]
  rfl

private theorem parse_simple {fuel : Nat} {name : String} (hname : IsPlainName name) {tail : List Char}
    (htail : EndsName tail) : parse (fuel + 1) (name.toList ++ tail) = some (inArrays (simple name) tail) := by
  rw [parse_word hname fun c hc => (htail c hc).1, if_neg]
  intro hopen
  exact (htail '<' hopen).2 rfl

private theorem parse_named {fuel : Nat} {name : String} (hname : IsPlainName name) {args : List TypeRef}
    {cs cs' : List Char} (h : parseAll fuel '>' cs = some (args, cs')) :
    parse (fuel + 1) (name.toList ++ '<' :: cs) = some (inArrays (named name args) cs') := by
  have hopen : ∀ c ∈ ('<' :: cs).head?, isNameChar c = false := by
    intro c hc
    rw [← Option.some.inj hc]
    rfl
  rw [parse_word hname hopen, if_pos List.head?_cons, List.tail_cons, h]
  rfl

private theorem parse_var {fuel : Nat} {tail : List Char} (htail : EndsName tail) :
    parse (fuel + 1) ("var".toList ++ tail) = some (inArrays inferred tail) := by
  have hvar : ∀ c ∈ "var".toList, isNameChar c = true := List.all_eq_true.1 rfl
  obtain ⟨htake, hdrop⟩ := Patch.takeWhile_dropWhile_append hvar fun c hc => (htail c hc).1
  rw [parse.eq_5 _ _ (by simp) (by simp) (by simp), htake, hdrop]
  rfl

private theorem parseAll_last {fuel : Nat} {t : TypeRef} {close : Char} (hclose : close ≠ ',') {cs tail : List Char}
    (h : parse fuel cs = some (t, close :: tail)) : parseAll (fuel + 1) close cs = some ([t], tail) := by
  rw [parseAll, h]
  simp [hclose]

private theorem parseAll_comma {fuel : Nat} {t : TypeRef} {ts : List TypeRef} {close : Char} {cs cs' tail : List Char}
    (h : parse fuel cs = some (t, ',' :: ' ' :: cs')) (hts : parseAll fuel close cs' = some (ts, tail)) :
    parseAll (fuel + 1) close cs = some (t :: ts, tail) := by
  rw [parseAll, h]
  simp [hts]

/-! ### Reading what was written -/

private theorem toList_text_named (name : String) (a : TypeRef) (as : List TypeRef) (tail : List Char) :
    (named name (a :: as)).text.toList ++ tail = name.toList ++ '<' :: ((texts (a :: as)).toList ++ '>' :: tail) := by
  simp [text]

private theorem toList_text_tuple (items : List TypeRef) (tail : List Char) :
    (tuple items).text.toList ++ tail = '(' :: ((texts items).toList ++ ')' :: tail) := by
  simp [text]

private theorem toList_text_array (item : TypeRef) (tail : List Char) :
    (array item).text.toList ++ tail = item.text.toList ++ '[' :: ']' :: tail := by
  simp [text]

private theorem toList_texts_singleton (t : TypeRef) : (texts [t]).toList = t.text.toList := by
  simp [texts, rest]

private theorem toList_texts_cons (t u : TypeRef) (us : List TypeRef) :
    (texts (t :: u :: us)).toList = t.text.toList ++ ',' :: ' ' :: (texts (u :: us)).toList := by
  simp [texts, rest]

mutual

/-- The text of a type is read again as the type, in the arrays that the brackets behind it stand for. -/
theorem parse_text_append {t : TypeRef} (ht : ∀ name ∈ t.names, IsPlainName name) {fuel : Nat} {tail : List Char}
    (htail : EndsName tail) (hfuel : t.text.toList.length ≤ fuel) :
    parse (fuel + 1) (t.text.toList ++ tail) = some (inArrays t tail) := by
  match t with
  | named name [] =>
    rw [text]
    exact parse_simple (ht name (by simp [names])) htail
  | named name (a :: as) =>
    have hname : IsPlainName name := ht name (by simp [names])
    have hlen : (texts (a :: as)).toList.length + 1 < fuel := by
      obtain ⟨c, cs, hcons, -⟩ := hname.exists_cons
      simp [text, hcons] at hfuel
      omega
    rw [toList_text_named]
    exact parse_named hname
      (parseAll_texts_append (fun n hn => ht n (List.mem_cons_of_mem _ hn)) (.inr rfl) hlen tail)
  | tuple [] =>
    rw [toList_text_tuple]
    exact parse.eq_3 ..
  | tuple (t :: ts) =>
    have hlen : (texts (t :: ts)).toList.length + 1 < fuel := by
      simp [text] at hfuel
      omega
    rw [toList_text_tuple]
    exact parse_tuple (parseAll_texts_append ht (.inl rfl) hlen tail)
  | array item =>
    have hlen : item.text.toList.length ≤ fuel := by
      simp [text] at hfuel
      omega
    rw [toList_text_array]
    exact parse_text_append (t := item) ht (endsName_cons (by decide) (by decide) _) hlen
  | inferred => exact parse_var htail
  | unknown => exact parse.eq_2 ..

/-- The texts of several types with commas between them are read again up to the bracket that closes them. -/
private theorem parseAll_texts_append {t : TypeRef} {ts : List TypeRef}
    (hts : ∀ name ∈ allNames (t :: ts), IsPlainName name) {close : Char} (hclose : close = ')' ∨ close = '>')
    {fuel : Nat} (hfuel : (texts (t :: ts)).toList.length + 1 < fuel) (tail : List Char) :
    parseAll fuel close ((texts (t :: ts)).toList ++ close :: tail) = some (t :: ts, tail) := by
  obtain ⟨fuel, rfl⟩ : ∃ k, fuel = k + 2 := ⟨fuel - 2, by omega⟩
  have ht : ∀ name ∈ t.names, IsPlainName name := fun n hn => hts n (List.mem_append_left _ hn)
  match ts with
  | [] =>
    rw [toList_texts_singleton] at hfuel ⊢
    have hend : EndsName (close :: tail) := by
      rcases hclose with rfl | rfl <;> exact endsName_cons (by decide) (by decide) tail
    have hnext : inArrays t (close :: tail) = (t, close :: tail) := by
      rcases hclose with rfl | rfl <;> rfl
    have hcomma : close ≠ ',' := by
      rcases hclose with rfl | rfl <;> decide
    exact parseAll_last hcomma (hnext ▸ parse_text_append ht hend (by omega))
  | u :: us =>
    rw [toList_texts_cons] at hfuel ⊢
    rw [List.append_assoc]
    simp only [List.length_append, List.length_cons] at hfuel
    refine parseAll_comma (parse_text_append ht (endsName_cons (c := ',') (by decide) (by decide) _) (by omega)) ?_
    exact parseAll_texts_append (fun n hn => hts n (List.mem_append_right _ hn)) hclose (by omega) tail

end

/-- A type whose names are plain is read from its text. -/
theorem ofNotation?_text {t : TypeRef} (ht : ∀ name ∈ t.names, IsPlainName name) : ofNotation? t.text = some t := by
  have h : parse (t.text.toList.length + 1) (t.text.toList ++ []) = some (inArrays t []) :=
    parse_text_append ht (by simp [EndsName]) (Nat.le_refl _)
  rw [List.append_nil] at h
  rw [ofNotation?, h]
  rfl

/-- Types whose names are plain are told apart by their texts. -/
theorem eq_of_text_eq {t u : TypeRef} (ht : ∀ name ∈ t.names, IsPlainName name)
    (hu : ∀ name ∈ u.names, IsPlainName name) (h : t.text = u.text) : t = u := by
  have hread : some t = some u := by
    rw [← ofNotation?_text ht, ← ofNotation?_text hu, h]
  exact Option.some.inj hread

/-- A type that is read from the class library's notation, inside others. -/
theorem eq_of_text_eq_nested :
    let t := named "Dictionary" [simple "string", tuple [array (array (simple "Stream")), unknown]]
    let u := named "Dictionary" [simple "string", tuple [ofText "Stream[][]", unknown]]
    (∀ name ∈ t.names, IsPlainName name) ∧ (∀ name ∈ u.names, IsPlainName name) ∧ t.text = u.text ∧ t = u := by
  intro t u
  have ht : ∀ name ∈ t.names, IsPlainName name := by decide
  have hu : ∀ name ∈ u.names, IsPlainName name := by decide
  have h : t.text = u.text := by decide
  exact ⟨ht, hu, h, eq_of_text_eq ht hu h⟩

/-- The name `var` would be read as a type that is left out. -/
example : (simple "var").text = inferred.text := rfl

end Disposal.TypeRef
