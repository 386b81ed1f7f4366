import Disposal.Proofs.Finalization
import Disposal.Proofs.Sketch

/-!
# The disposing scope

The scope of a method `Dispose(bool disposing)` holds statements that run only when `disposing` is true: with the
parameter false, no execution of the body enters any of them, nor anything below them.

* `IsSparing.spares_disposingIn`, `IsSparing.spares_disposingAmong`: from one level of statements to the next;
* `Model.disposingScope_spared`: the scope of a method.
-/

namespace Disposal

/-! ### What a trace spares -/

/-- Neither the nodes nor anything below them is entered. -/
def Spares (ns t : List Node) : Prop := ∀ n ∈ ns, ∀ x ∈ t, n.contains x = false

namespace Spares

variable {ns ms t u : List Node} {n k : Node}

private theorem nil_left : Spares [] t := nofun

private theorem nil_right : Spares ns [] := nofun

private theorem append_left (h : Spares ns t) (h' : Spares ms t) : Spares (ns ++ ms) t := by
  intro y hy
  rcases List.mem_append.1 hy with hy | hy
  · exact h y hy
  · exact h' y hy

private theorem append_right (h : Spares ns t) (h' : Spares ns u) : Spares ns (t ++ u) := by
  intro y hy x hx
  rcases List.mem_append.1 hx with hx | hx
  · exact h y hy x hx
  · exact h' y hy x hx

theorem flatMap {f : Node → List Node} {bs : List Node} (h : ∀ b ∈ bs, Spares (f b) t) : Spares (bs.flatMap f) t := by
  intro y hy
  obtain ⟨b, hb, hy⟩ := List.mem_flatMap.1 hy
  exact h b hb y hy

/-- What lies below a child is spared if the part of the trace spares it that is not outside of the child. -/
private theorem of_outside {t' : List Node} (hk : k ∈ n.children) (hns : ∀ y ∈ ns, y ∈ k.preorder) (h : Spares ns t')
    (ho : Finalizes.Outside n k t' t) : Spares ns t := by
  intro y hy x hx
  rcases ho x hx with hx | rfl | ⟨d, hd, hdk, hxd⟩
  · exact h y hy x hx
  · exact Node.contains_eq_false_of_child hk (hns y hy)
  · exact Node.contains_eq_false_of_ne hk hd (Ne.symm hdk) (hns y hy) hxd

end Spares

namespace Node

/-- Nothing at or below one of the two nodes contains anything at or below the other. -/
def Apart (a b : Node) : Prop := ∀ x ∈ a.preorder, ∀ y ∈ b.preorder, x.contains y = false ∧ y.contains x = false

private theorem pairwise_apart_named (n : Node) : n.named.Pairwise Apart := by
  refine n.pairwise_rank_named.imp_of_mem ?_
  intro a b ha hb hab x hx y hy
  have hne : a ≠ b := by
    rintro rfl
    exact Nat.lt_irrefl _ hab
  have ha' := mem_children_of_named ha
  have hb' := mem_children_of_named hb
  exact ⟨contains_eq_false_of_ne ha' hb' hne hx hy, contains_eq_false_of_ne hb' ha' hne.symm hy hx⟩

/-! ### Parts of statements -/

private theorem forall_mem_preorder_singleton (n : Node) : ∀ x ∈ [n], x ∈ n.preorder := by
  intro x hx
  rw [List.mem_singleton.1 hx]
  exact mem_preorder_self n

section

variable {n x : Node}

theorem mem_preorder_of_statements (h : x ∈ n.statements) : x ∈ n.preorder := by
  unfold statements at h
  split at h
  · exact mem_preorder_of_mem_children (mem_children_of_named h)
  · rw [List.mem_singleton.1 h]
    exact mem_preorder_self n

private theorem insideElse_mem_preorder (n : Node) : n.insideElse ∈ n.preorder := by
  unfold insideElse
  split
  · cases hl : n.lastNamed? with
    | none => exact mem_preorder_self n
    | some s => exact mem_preorder_of_mem_children (mem_children_of_lastNamed? hl)
  · exact mem_preorder_self n

theorem mem_children_of_ifConsequence? (h : n.ifConsequence? = some x) : x ∈ n.children :=
  mem_children_of_orElse (fun _ hd => mem_children_of_named (List.mem_of_getElem? hd)) h

private theorem mem_children_of_ifAlternative? (h : n.ifAlternative? = some x) : x ∈ n.children :=
  mem_children_of_orElse (fun _ hd => mem_children_of_named (List.mem_of_getElem? hd)) h

private theorem mem_children_of_body? (h : (n.field .body <|> n.lastNamed?) = some x) : x ∈ n.children :=
  mem_children_of_orElse (fun _ hd => mem_children_of_lastNamed? hd) h

/-- The parts of an orderly `if` are those in its fields. -/
private theorem if_parts (hk : n.kind? = some .ifStatement) (h : n.isOrderly = true) :
    (∃ c s, n.field .condition = some c ∧ n.ifCondition? = some c ∧ n.field .consequence = some s ∧
      n.ifConsequence? = some s) ∧ n.ifAlternative? = n.field .alternative := by
  unfold isOrderly at h
  rw [hk] at h
  simp only [Bool.and_eq_true, Bool.or_eq_true, Option.isSome_iff_exists, Option.isNone_iff_eq_none] at h
  obtain ⟨⟨⟨c, hc⟩, ⟨s, hs⟩⟩, ha⟩ := h
  refine ⟨⟨c, s, hc, ?_, hs, ?_⟩, ?_⟩
  · rw [ifCondition?, hc]
    rfl
  · rw [ifConsequence?, hs]
    rfl
  · rcases ha with ⟨a, ha⟩ | ha
    · rw [ifAlternative?, ha]
      rfl
    · rw [ifAlternative?, ha]
      cases n.field .alternative <;> rfl

/-- The body of an orderly `using` or `lock` stands at its end. -/
private theorem lastNamed?_of_body? (hk : n.isAny [.lockStatement, .usingStatement] = true) (h : n.isOrderly = true)
    (hb : (n.field .body <|> n.lastNamed?) = some x) : n.lastNamed? = some x := by
  rw [Option.orElse_eq_orElse, Option.orElse_eq_or, Option.or_eq_some_iff] at hb
  rcases hb with hb | ⟨-, hb⟩
  · have hall : (n.field .body).all (fun b => n.lastNamed?.any (· == b)) = true := by
      obtain ⟨k, hk, hn⟩ := isAny_iff.1 hk
      simp only [List.mem_cons, List.not_mem_nil, or_false] at hk
      unfold isOrderly at h
      rw [hn] at h
      rcases hk with rfl | rfl <;> exact h
    rw [hb] at hall
    obtain ⟨l, hl, hlx⟩ := (Option.any_eq_true _ _).1 hall
    rw [hl, eq_of_mem_children (mem_children_of_lastNamed? hl) (mem_children_of_field hb) (beq_iff.1 hlx)]
  · exact hb

private theorem mem_tryBlocks (h : x ∈ n.tryBlocks) :
    (x ∈ n.named ∧ x.kind? = some .block) ∨
      ∃ f ∈ n.named, f.kind? = some .finallyClause ∧ f.lastNamed? = some x := by
  obtain ⟨part, hp, h⟩ := List.mem_filterMap.1 h
  split at h
  · next hb =>
    cases h
    exact Or.inl ⟨hp, is_iff.1 hb⟩
  · split at h
    · next hf => exact Or.inr ⟨part, hp, is_iff.1 hf, h⟩
    · cases h

private theorem mem_preorder_of_mem_tryBlocks (h : x ∈ n.tryBlocks) : x ∈ n.preorder := by
  rcases mem_tryBlocks h with ⟨hx, -⟩ | ⟨f, hf, -, hx⟩
  · exact mem_preorder_of_mem_children (mem_children_of_named hx)
  · exact mem_preorder_of_child (mem_children_of_named hf)
      (mem_preorder_of_mem_children (mem_children_of_lastNamed? hx))

end

end Node

/-! ### One level of statements -/

/-- Below the node, the parts of statements stand in their places and the guards of conditions are right. -/
structure IsGuarded (name : String) (guard? : Node → Option Guard) (s : Node) : Prop where
  orderly : ∀ x ∈ s.preorder, x.isOrderly = true
  tells : ∀ x ∈ s.preorder, x.kind? = some .ifStatement → ∀ c g, x.field .condition = some c → guard? c = some g →
    c.Tells name g

/-- What is found among statements lies below them and is spared by every execution of them. -/
structure IsSparing (name : String) (guard? : Node → Option Guard) (found : List Node → List Node) : Prop where
  below : ∀ ss, ∀ y ∈ found ss, ∃ s ∈ ss, y ∈ s.preorder
  spares : ∀ ss t e, ss.Pairwise Node.Apart → (∀ s ∈ ss, IsGuarded name guard? s) →
    Finalizes name (.sequence ss) t e → Spares (found ss) t

section

variable {name : String} {guard? : Node → Option Guard} {inner : List Node → List Node} {s : Node} {t : List Node}
  {e : Ending}

theorem IsGuarded.of_mem_preorder {x : Node} (h : IsGuarded name guard? s) (hx : x ∈ s.preorder) :
    IsGuarded name guard? x where
  orderly y hy := h.orderly y (Node.mem_preorder_trans hx hy)
  tells y hy := h.tells y (Node.mem_preorder_trans hx hy)

theorem IsGuarded.of_mem_children {c : Node} (h : IsGuarded name guard? s) (hc : c ∈ s.children) :
    IsGuarded name guard? c :=
  h.of_mem_preorder (Node.mem_preorder_of_mem_children hc)

namespace IsSparing

variable (hi : IsSparing name guard? inner)

include hi

theorem below_statements {y : Node} (hy : y ∈ inner s.statements) : y ∈ s.preorder := by
  obtain ⟨x, hx, hyx⟩ := hi.below _ y hy
  exact Node.mem_preorder_trans (Node.mem_preorder_of_statements hx) hyx

private theorem below_insideElse {y : Node} (hy : y ∈ inner s.insideElse.statements) : y ∈ s.preorder :=
  Node.mem_preorder_trans s.insideElse_mem_preorder (hi.below_statements hy)

/-- What is found among the statements of a block, or at a single statement, is spared. -/
private theorem spares_statements (hs : IsGuarded name guard? s) (h : Finalizes name (.statement s) t e) :
    Spares (inner s.statements) t := by
  cases hb : s.is .block with
  | true =>
    have hst : s.statements = s.named := by rw [Node.statements, if_pos hb]
    rw [hst]
    rcases Finalizes.of_block (Node.is_iff.1 hb) h with ⟨rfl, -⟩ | ⟨t', rfl, hrun⟩
    · exact .nil_right
    · have hin : Spares (inner s.named) t' :=
        hi.spares _ _ _ s.pairwise_apart_named (fun x hx => hs.of_mem_children (Node.mem_children_of_named hx)) hrun
      -- the block itself lies above what is found
      intro y hy x hx
      rcases List.mem_cons.1 hx with rfl | hx
      · obtain ⟨c, hc, hyc⟩ := hi.below _ y hy
        exact Node.contains_eq_false_of_child (Node.mem_children_of_named hc) hyc
      · exact hin y hy x hx
  | false =>
    have hst : s.statements = [s] := by rw [Node.statements, hb]; rfl
    rw [hst]
    have hrun : Finalizes name (.sequence [s]) t e := by
      by_cases he : e = .done
      · subst he
        rw [← List.append_nil t]
        exact .next h .nil
      · exact .stop h he
    refine hi.spares _ _ _ (List.pairwise_singleton _ _) ?_ hrun
    intro x hx
    rwa [List.mem_singleton.1 hx]

/-- What is found in a child is spared if all that a node does lies outside of the child, but for one run of it. -/
private theorem spares_child {k : Node} (hs : IsGuarded name guard? s) (hk : k ∈ s.children)
    (h : ∃ t' e', Finalizes name (.statement k) t' e' ∧ Finalizes.Outside s k t' t) :
    Spares (inner k.statements) t := by
  obtain ⟨t', e', hrun, ho⟩ := h
  exact .of_outside hk (fun y hy => hi.below_statements hy) (hi.spares_statements (hs.of_mem_children hk) hrun) ho

private theorem spares_insideElse (hs : IsGuarded name guard? s) (h : Finalizes name (.statement s) t e) :
    Spares (inner s.insideElse.statements) t := by
  cases hk : s.is .elseClause with
  | false =>
    rw [Node.insideElse, hk]
    exact hi.spares_statements hs h
  | true =>
    rw [Node.insideElse, if_pos hk]
    cases hl : s.lastNamed? with
    | none => exact hi.spares_statements hs h
    | some k =>
      have hbodied : s.isAny Node.bodiedKinds = true := by rw [Node.isAny_eq_of_kind? (Node.is_iff.1 hk)]; rfl
      exact hi.spares_child hs (Node.mem_children_of_lastNamed? hl) (Finalizes.exists_run_bodied hbodied hl h)

open Model (disposingIn disposingAmong disposingWithin)

private theorem below_disposingIn {parts : List Node} (hp : disposingIn guard? inner s = some parts) {y : Node}
    (hy : y ∈ parts) : y ∈ s.preorder := by
  have child : ∀ {c : Node}, c ∈ s.children → y ∈ c.preorder → y ∈ s.preorder := Node.mem_preorder_of_child
  unfold disposingIn at hp
  split at hp
  · split at hp
    · cases hp
      exact Node.mem_preorder_of_mem_children (Node.mem_children_of_ifConsequence? (Option.mem_toList.1 hy))
    · split at hp
      · cases hp
      · cases hp
        exact Node.mem_preorder_of_mem_children (Node.mem_children_of_ifAlternative? (Option.mem_toList.1 hy))
    · cases hp
      obtain ⟨b, hb, hy⟩ := List.mem_flatMap.1 hy
      rcases List.mem_append.1 hb with hb | hb
      · exact child (Node.mem_children_of_ifConsequence? (Option.mem_toList.1 hb)) (hi.below_insideElse hy)
      · exact child (Node.mem_children_of_ifAlternative? (Option.mem_toList.1 hb)) (hi.below_insideElse hy)
  · cases hp
    exact hi.below_statements hy
  · cases hp
    obtain ⟨b, hb, hy⟩ := List.mem_flatMap.1 hy
    exact Node.mem_preorder_trans (Node.mem_preorder_of_mem_tryBlocks hb) (hi.below_statements hy)
  · cases hp
    obtain ⟨b, hb, hy⟩ := List.mem_flatMap.1 hy
    exact child (Node.mem_children_of_body? (Option.mem_toList.1 hb)) (hi.below_statements hy)
  · cases hp
    obtain ⟨b, hb, hy⟩ := List.mem_flatMap.1 hy
    exact child (Node.mem_children_of_body? (Option.mem_toList.1 hb)) (hi.below_statements hy)
  · cases hp
    cases hy

private theorem spares_if {parts : List Node} (hk : s.kind? = some .ifStatement) (hs : IsGuarded name guard? s)
    (h : Finalizes name (.statement s) t e) (hp : disposingIn guard? inner s = some parts) : Spares parts t := by
  obtain ⟨⟨c, b, hc, hc', hb, hb'⟩, ha'⟩ := Node.if_parts hk (hs.orderly s (Node.mem_preorder_self s))
  have htells : ∀ g, guard? c = some g → c.Tells name g := fun g => hs.tells s (Node.mem_preorder_self s) hk c g hc
  -- a branch that is never chosen
  have unchosen : ∀ {g k}, guard? c = some g →
      s.field (if g.value then .alternative else .consequence) = some k → Spares [k] t := by
    intro g k hg hk'
    exact .of_outside (Node.mem_children_of_field hk') k.forall_mem_preorder_singleton .nil_right
      (Finalizes.outside_of_tells hk hc (htells g hg) hk' h)
  -- what is found in a branch that may be chosen
  have chosen : ∀ {f k}, s.field f = some k → f ≠ .condition → Spares (inner k.insideElse.statements) t := by
    intro f k hk' hf
    have hkc := Node.mem_children_of_field hk'
    obtain ⟨t', e', hrun, ho⟩ := Finalizes.exists_run_if hk hk' hf h
    exact .of_outside hkc (fun y hy => hi.below_insideElse hy) (hi.spares_insideElse (hs.of_mem_children hkc) hrun) ho
  unfold disposingIn at hp
  simp only [hk, hc', hb', ha', Option.bind_some] at hp
  split at hp
  · next hg =>
    cases hp
    exact unchosen hg hb
  · next hg =>
    split at hp
    · cases hp
    · cases hp
      cases ha : s.field .alternative with
      | none => exact .nil_left
      | some a => exact unchosen hg ha
  · cases hp
    refine .flatMap fun k hk' => ?_
    rcases List.mem_append.1 hk' with hk' | hk'
    · rw [Option.mem_toList, Option.some.injEq] at hk'
      rw [← hk']
      exact chosen hb (by decide)
    · exact chosen (Option.mem_toList.1 hk') (by decide)

private theorem spares_try (hk : s.kind? = some .tryStatement) (hs : IsGuarded name guard? s)
    (h : Finalizes name (.statement s) t e) : Spares (s.tryBlocks.flatMap fun b => inner b.statements) t := by
  refine .flatMap fun b hb => ?_
  rcases Node.mem_tryBlocks hb with ⟨hb, -⟩ | ⟨f, hf, hfk, hb⟩
  · exact hi.spares_child hs (Node.mem_children_of_named hb) (Finalizes.exists_run_try hk h)
  · -- first to the clause, then to its block
    have hfc := Node.mem_children_of_named hf
    have hbc := Node.mem_children_of_lastNamed? hb
    have hbodied : f.isAny Node.bodiedKinds = true := by rw [Node.isAny_eq_of_kind? hfk]; rfl
    obtain ⟨t', e', hrun, ho⟩ := Finalizes.exists_run_try hk h
    have hblock : Spares (inner b.statements) t' :=
      hi.spares_child (hs.of_mem_children hfc) hbc (Finalizes.exists_run_bodied hbodied hb hrun)
    exact .of_outside hfc (fun y hy => Node.mem_preorder_of_child hbc (hi.below_statements hy)) hblock ho

private theorem spares_body (hk : s.isAny [.lockStatement, .usingStatement] = true) (hs : IsGuarded name guard? s)
    (h : Finalizes name (.statement s) t e) :
    Spares ((s.field .body <|> s.lastNamed?).toList.flatMap fun b => inner b.statements) t := by
  refine .flatMap fun b hb => ?_
  have hl := Node.lastNamed?_of_body? hk (hs.orderly s (Node.mem_preorder_self s)) (Option.mem_toList.1 hb)
  have hbodied : s.isAny Node.bodiedKinds = true := by
    obtain ⟨k, hk, hsk⟩ := Node.isAny_iff.1 hk
    rw [Node.isAny_eq_of_kind? hsk]
    simp only [List.mem_cons, List.not_mem_nil, or_false] at hk
    rcases hk with rfl | rfl <;> rfl
  exact hi.spares_child hs (Node.mem_children_of_lastNamed? hl) (Finalizes.exists_run_bodied hbodied hl h)

/-- What is found in a statement is spared by every execution of it. -/
theorem spares_disposingIn {parts : List Node} (hs : IsGuarded name guard? s) (h : Finalizes name (.statement s) t e)
    (hp : disposingIn guard? inner s = some parts) : Spares parts t := by
  cases hk : s.kind? with
  | none =>
    rw [disposingIn, hk] at hp
    cases hp
    exact .nil_left
  | some k =>
    by_cases hif : k = .ifStatement
    · exact hi.spares_if (hif ▸ hk) hs h hp
    rw [disposingIn, hk] at hp
    split at hp
    · next heq => exact absurd (Option.some.inj heq) hif
    · next heq =>
      cases hp
      exact hi.spares_statements hs h
    · next heq =>
      cases hp
      exact hi.spares_try (hk.trans heq) hs h
    · next heq =>
      cases hp
      exact hi.spares_body (by rw [Node.isAny_eq_of_kind? (hk.trans heq)]; rfl) hs h
    · next heq =>
      cases hp
      exact hi.spares_body (by rw [Node.isAny_eq_of_kind? (hk.trans heq)]; rfl) hs h
    · cases hp
      exact .nil_left

omit hi in
/-- A statement in front of which everything else runs only when `disposing` does not come to its end. -/
private theorem ne_done_of_disposingIn (hs : IsGuarded name guard? s) (h : Finalizes name (.statement s) t e)
    (hp : disposingIn guard? inner s = none) : e ≠ .done := by
  unfold disposingIn at hp
  split at hp
  · next hk =>
    obtain ⟨⟨c, b, hc, hc', hb, hb'⟩, -⟩ := Node.if_parts hk (hs.orderly s (Node.mem_preorder_self s))
    simp only [hc', hb', Option.bind_some] at hp
    split at hp
    · cases hp
    · next hg =>
      split at hp
      · next hx =>
        exact Finalizes.ne_done_of_tells hk hc (hs.tells s (Node.mem_preorder_self s) hk c _ hc hg) hb hx h
      · cases hp
    · cases hp
  all_goals cases hp

private theorem below_disposingAmong {ss : List Node} {y : Node} (hy : y ∈ disposingAmong guard? inner ss) :
    ∃ s ∈ ss, y ∈ s.preorder := by
  induction ss with
  | nil => cases hy
  | cons s ss ih =>
    rw [Model.disposingAmong] at hy
    split at hy
    · next parts hp =>
      rcases List.mem_append.1 hy with hy | hy
      · exact ⟨s, List.mem_cons_self, hi.below_disposingIn hp hy⟩
      · obtain ⟨x, hx, hyx⟩ := ih hy
        exact ⟨x, List.mem_cons_of_mem s hx, hyx⟩
    · exact ⟨y, List.mem_cons_of_mem s hy, Node.mem_preorder_self y⟩

theorem spares_disposingAmong {ss : List Node} (hapart : ss.Pairwise Node.Apart)
    (hs : ∀ s ∈ ss, IsGuarded name guard? s) (h : Finalizes name (.sequence ss) t e) :
    Spares (disposingAmong guard? inner ss) t := by
  induction ss generalizing t with
  | nil => exact .nil_left
  | cons s ss ih =>
    obtain ⟨hhead, htail⟩ := List.pairwise_cons.1 hapart
    have hs' := hs s List.mem_cons_self
    -- the first statement does not touch what is found behind it, nor the others what is found in it
    have first : ∀ {ns u e'}, (∀ y ∈ ns, ∃ b ∈ ss, y ∈ b.preorder) → Finalizes name (.statement s) u e' →
        Spares ns u := by
      intro ns u e' hns hrun y hy x hx
      obtain ⟨b, hb, hyb⟩ := hns y hy
      exact (hhead b hb x (hrun.reaches hx) y hyb).2
    have others : ∀ {ns u e'}, (∀ y ∈ ns, y ∈ s.preorder) → Finalizes name (.sequence ss) u e' → Spares ns u := by
      intro ns u e' hns hrun y hy x hx
      obtain ⟨b, hb, hxb⟩ := hrun.reaches hx
      exact (hhead b hb y (hns y hy) x hxb).1
    rw [Model.disposingAmong]
    cases hp : disposingIn guard? inner s with
    | some parts =>
      have below : ∀ y ∈ Model.disposingAmong guard? inner ss, ∃ b ∈ ss, y ∈ b.preorder :=
        fun _ hy => hi.below_disposingAmong hy
      cases h with
      | cut | thrown => exact .nil_right
      | stop hrun => exact .append_left (hi.spares_disposingIn hs' hrun hp) (first below hrun)
      | next hrun hrest =>
        refine .append_left (.append_right (hi.spares_disposingIn hs' hrun hp) ?_) (.append_right (first below hrun) ?_)
        · exact others (fun y => hi.below_disposingIn hp) hrest
        · exact ih htail (fun x hx => hs x (List.mem_cons_of_mem s hx)) hrest
    | none =>
      cases h with
      | cut | thrown => exact .nil_right
      | stop hrun => exact first (fun y hy => ⟨y, hy, Node.mem_preorder_self y⟩) hrun
      | next hrun => exact absurd rfl (ne_done_of_disposingIn hs' hrun hp)

omit hi in
theorem disposingWithin (depth : Nat) : IsSparing name guard? (disposingWithin guard? depth) := by
  induction depth with
  | zero => exact ⟨nofun, fun _ _ _ _ _ _ => .nil_left⟩
  | succ depth ih =>
    exact ⟨fun _ _ hy => ih.below_disposingAmong hy, fun _ _ _ hapart hs h => ih.spares_disposingAmong hapart hs h⟩

end IsSparing

end

namespace Model

/-- With the parameter of `Dispose(bool)` false, no execution of the body enters a node of the disposing scope or
anything below one. -/
theorem disposingScope_spared (documents : List Document) {method param block : Node} {name : String}
    {t : List Node} {e : Ending} (hmethod : (Compilation.ofDocuments documents).HasPlace method)
    (hparam : method.parameters.head? = some param) (hname : (Symbol.parameter param).name? = some name)
    (hblock : method.blockBody? = some block) (horderly : ∀ s ∈ block.preorder, s.isOrderly = true)
    (hrun : Finalizes name (.statement block) t e) :
    Spares ((Compilation.ofDocuments documents).model.disposingScope method) t := by
  have hc := Compilation.isRead_ofDocuments documents
  generalize Compilation.ofDocuments documents = c at *
  have hp : c.HasPlace param := hmethod.of_parameters (List.mem_of_mem_head? hparam)
  have hb : c.HasPlace block := hmethod.of_blockBody? hblock
  have hguarded : IsGuarded name (Guard.of? c.model param) block := by
    refine ⟨horderly, fun x hx hk condition g hcond hg => ?_⟩
    have hchild := Node.mem_children_of_field hcond
    exact Guard.sound hc hp hname (.child (hb.of_mem_preorder hx) hchild)
      (Node.isConditional_of_mem_children hchild hk (by decide)) hg
  rw [disposingScope, hparam, hblock]
  exact (IsSparing.disposingWithin _).spares_statements hguarded hrun

namespace Sample

open Sketch

/-- `class C{void Dispose(bool disposing){if(x&&disposing)A();if(!disposing)return;B();}}` -/
def guarding : Document :=
  document "C.cs"
    [classOf "C"
      [method [] void "Dispose"
        [ofKind .parameter
          [((leaf (.kind .predefinedType) "bool").inField .type).spaced, (name "disposing").inField .name]]
        [choose (operation (name "x") "&&" (name "disposing")) (statement (call (name "A") [])),
         choose (negation (name "disposing")) leaving,
         statement (call (name "B") [])]]]

/-- Whether a statement is `if(x&&disposing)…`, without `else`. -/
def isSkipped (s : Node) : Bool :=
  s.is .ifStatement && (s.field .alternative).isNone &&
    (s.field .condition).any fun c =>
      match c.condition "disposing" with
      | .conjunction left right =>
        match left.condition "disposing", right.condition "disposing" with
        | .atom, .parameter => true
        | _, _ => false
      | _ => false

/-- Whether a statement is `if(!disposing)return;`. -/
def isEarlyReturn (s : Node) : Bool :=
  s.is .ifStatement && (s.field .consequence).any (·.is .returnStatement) &&
    (s.field .condition).any fun c =>
      match c.condition "disposing" with
      | .negation operand =>
        match operand.condition "disposing" with
        | .parameter => true
        | _ => false
      | _ => false

private theorem finalizes_of_isSkipped {s : Node} (h : isSkipped s = true) :
    ∃ c, Finalizes "disposing" (.statement s) [s, c] .done := by
  simp only [isSkipped, Bool.and_eq_true, Option.isNone_iff_eq_none] at h
  obtain ⟨⟨hk, ha⟩, hc⟩ := h
  obtain ⟨c, hc, h⟩ := (Option.any_eq_true _ _).1 hc
  have hu := c.forall_mem_preorder_singleton
  split at h
  · next left right hn =>
    split at h
    · next hl hr => exact ⟨c, .noElse (Node.is_iff.1 hk) hc hu (.conjunction hn (.atom hl true) (.parameter hr)) ha⟩
    · cases h
  · cases h

private theorem finalizes_of_isEarlyReturn {s : Node} (h : isEarlyReturn s = true) :
    ∃ c r, Finalizes "disposing" (.statement s) [s, c, r] (.left .returning) := by
  simp only [isEarlyReturn, Bool.and_eq_true] at h
  obtain ⟨⟨hk, hr⟩, hc⟩ := h
  obtain ⟨r, hr, hrk⟩ := (Option.any_eq_true _ _).1 hr
  obtain ⟨c, hc, h⟩ := (Option.any_eq_true _ _).1 hc
  have hu := c.forall_mem_preorder_singleton
  have hrun : Finalizes "disposing" (.statement r) [r] (.left .returning) :=
    .leave (by rw [Node.isAny_eq_of_kind? (Node.is_iff.1 hrk)]; rfl) nofun (Or.inl (Node.is_iff.1 hrk))
  split at h
  · next operand hn =>
    split at h
    · next ho => exact ⟨c, r, .choice (Node.is_iff.1 hk) hc hu (.negation hn (.parameter ho)) hr hrun⟩
    · cases h
  · cases h

end Sample

/-- The theorem where one branch is skipped and the other returns early. -/
theorem disposingScope_spared_guarding :
    ∃ method param block s₁ s₂ c₁ c₂ r, (Compilation.ofDocuments [Sample.guarding]).HasPlace method ∧
      DisposeKind.of? method = some .disposeBool ∧ method.parameters.head? = some param ∧
      method.blockBody? = some block ∧
      Finalizes "disposing" (.statement block) [block, s₁, c₁, s₂, c₂, r] (.left .returning) ∧
      ((Compilation.ofDocuments [Sample.guarding]).model.disposingScope method).map (·.text) = ["A();", "B();"] ∧
      Spares ((Compilation.ofDocuments [Sample.guarding]).model.disposingScope method)
        [block, s₁, c₁, s₂, c₂, r] := by
  have hany : ((Compilation.ofDocuments [Sample.guarding]).places.any fun method =>
      decide (DisposeKind.of? method = some .disposeBool) &&
        decide (((Compilation.ofDocuments [Sample.guarding]).model.disposingScope method).map (·.text) =
          ["A();", "B();"]) &&
        method.parameters.head?.any (fun param => decide ((Symbol.parameter param).name? = some "disposing")) &&
        method.blockBody?.any fun block =>
          block.is .block && block.preorder.all (·.isOrderly) && block.named.head?.any Sample.isSkipped &&
            block.named.tail.head?.any Sample.isEarlyReturn) = true := by
    decide +kernel
  obtain ⟨method, hplace, h⟩ := List.any_eq_true.1 hany
  simp only [Bool.and_eq_true, decide_eq_true_eq] at h
  obtain ⟨⟨⟨hkind, hscope⟩, hparam⟩, hblock⟩ := h
  obtain ⟨param, hparam, hname⟩ := (Option.any_eq_true _ _).1 hparam
  obtain ⟨block, hblock, h⟩ := (Option.any_eq_true _ _).1 hblock
  simp only [Bool.and_eq_true, List.all_eq_true] at h
  obtain ⟨⟨⟨hb, horderly⟩, h₁⟩, h₂⟩ := h
  obtain ⟨s₁, hs₁, h₁⟩ := (Option.any_eq_true _ _).1 h₁
  obtain ⟨s₂, hs₂, h₂⟩ := (Option.any_eq_true _ _).1 h₂
  obtain ⟨rest, hnamed⟩ := List.head?_eq_some_iff.1 hs₁
  rw [hnamed, List.tail_cons] at hs₂
  obtain ⟨rest, rfl⟩ := List.head?_eq_some_iff.1 hs₂
  obtain ⟨c₁, h₁⟩ := Sample.finalizes_of_isSkipped h₁
  obtain ⟨c₂, r, h₂⟩ := Sample.finalizes_of_isEarlyReturn h₂
  have hrun : Finalizes "disposing" (.statement block) [block, s₁, c₁, s₂, c₂, r] (.left .returning) := by
    refine .block (Node.is_iff.1 hb) ?_
    rw [hnamed]
    exact .next h₁ (.stop h₂ (by decide))
  have hplace := Compilation.mem_places_iff.1 hplace
  exact ⟨method, param, block, s₁, s₂, c₁, c₂, r, hplace, hkind, hparam, hblock, hrun, hscope,
    disposingScope_spared [Sample.guarding] hplace hparam (of_decide_eq_true hname) hblock horderly hrun⟩

end Model

end Disposal
