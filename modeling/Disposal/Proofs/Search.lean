import Mathlib.Data.Set.Card
import Mathlib.Logic.Relation

/-!
# Searches that do not go round in circles

A search that goes from vertex to vertex and keeps the keys of the vertices it is inside of turns back at a key that it
meets again. It nevertheless finds all that can be reached: a shortest way to a leaf enters no vertex twice.

* `Search.finds_nil_iff`: a search finds a leaf exactly if one can be reached;
* `Search.exists_chain_le`: a leaf that can be reached is no farther than there are vertices;
* `Search.exists_rank`: vertices among which there are no circles can be numbered along the steps, with no more numbers
  than vertices.
-/

namespace Disposal.Search

open Relation

section

variable {V K : Type} [BEq K] (key? : V → Option K) (next : V → V → Prop) (leaf : V → Prop)

/-- The vertex can be entered: it has no key, or none of those on the way. -/
def IsOpen (path : List K) (v : V) : Prop := ∀ k, key? v = some k → path.contains k = false

/-- The keys on the way inside a vertex. -/
def inside (path : List K) (v : V) : List K := (key? v).toList ++ path

/-- A search that has come along a way finds a leaf from a vertex. -/
inductive Finds : List K → V → Prop
  | leaf {path : List K} {v : V} (hopen : IsOpen key? path v) (h : leaf v) : Finds path v
  | step {path : List K} {v w : V} (hopen : IsOpen key? path v) (h : next v w) (hw : Finds (inside key? path v) w) :
    Finds path v

/-- A leaf is reached after so many steps. -/
inductive Chain : Nat → V → Prop
  | leaf {v : V} (h : leaf v) : Chain 0 v
  | step {n : Nat} {v w : V} (h : next v w) (hw : Chain n w) : Chain (n + 1) v

variable {key? next leaf}

theorem Finds.reaches {path : List K} {v : V} (h : Finds key? next leaf path v) :
    ∃ w, ReflTransGen next v w ∧ leaf w := by
  induction h with
  | leaf _ h => exact ⟨_, .refl, h⟩
  | step _ h _ ih =>
    obtain ⟨w, hw, hleaf⟩ := ih
    exact ⟨w, .head h hw, hleaf⟩

private theorem exists_chain {v w : V} (h : ReflTransGen next v w) (hw : leaf w) : ∃ n, Chain next leaf n v := by
  induction h using ReflTransGen.head_induction_on with
  | refl => exact ⟨0, .leaf hw⟩
  | head hstep _ ih =>
    obtain ⟨n, hn⟩ := ih
    exact ⟨n + 1, .step hstep hn⟩

variable {IsIn : V → Prop} (hin : ∀ v w, IsIn v → next v w → IsIn w)
  (hkey : ∀ v w k l, IsIn v → IsIn w → key? v = some k → key? w = some l → (k == l) = true → v = w)

include hin hkey

/-- A leaf is found, or a vertex that the search is inside of is no farther from one. -/
private theorem finds_or_chain {n : Nat} {v : V} (hv : IsIn v) (h : Chain next leaf n v) (path : List K) :
    Finds key? next leaf path v ∨ ∃ m ≤ n, ∃ w, IsIn w ∧ Chain next leaf m w ∧ ¬IsOpen key? path w := by
  -- strong induction on the distance, since the way may be cut short at the vertex itself
  induction n using Nat.strongRecOn generalizing v path with
  | _ n ih =>
    by_cases hopen : IsOpen key? path v
    · cases h with
      | leaf h => exact .inl (.leaf hopen h)
      | @step n _ w hstep hw =>
        rcases ih n (Nat.lt_succ_self n) (hin v w hv hstep) hw (inside key? path v) with
          hfound | ⟨m, hm, u, hu, hchain, hmet⟩
        · exact .inl (.step hopen hstep hfound)
        · by_cases hpath : IsOpen key? path u
          · -- the vertex that is met again is the one just entered, and is nearer to a leaf than it seemed
            have huv : u = v := by
              unfold IsOpen at hmet
              push Not at hmet
              obtain ⟨k, hk, hmet⟩ := hmet
              have hnew := hpath k hk
              unfold inside at hmet
              cases hkv : key? v with
              | none =>
                rw [hkv] at hmet
                exact absurd hnew hmet
              | some l =>
                rw [hkv, Option.toList_some, List.singleton_append, List.contains_cons, hnew, Bool.or_false] at hmet
                exact hkey u v k l hu hv hk hkv (by simpa using hmet)
            subst huv
            rcases ih m (Nat.lt_succ_of_le hm) hu hchain path with hfound | ⟨m', hm', hrest⟩
            · exact .inl hfound
            · exact .inr ⟨m', by omega, hrest⟩
          · exact .inr ⟨m, by omega, u, hu, hchain, hpath⟩
    · exact .inr ⟨n, Nat.le_refl n, v, hv, h, hopen⟩

/-- A search finds a leaf exactly if one can be reached, by whatever way. -/
theorem finds_nil_iff {v : V} (hv : IsIn v) :
    Finds key? next leaf [] v ↔ ∃ w, ReflTransGen next v w ∧ leaf w := by
  constructor
  · exact Finds.reaches
  · rintro ⟨w, hreach, hw⟩
    obtain ⟨n, hn⟩ := exists_chain hreach hw
    rcases finds_or_chain hin hkey hv hn [] with hfound | ⟨-, -, u, -, -, hmet⟩
    · exact hfound
    · exact absurd (fun _ _ => rfl) hmet

end

/-! ### Short ways -/

section

variable {V : Type} {next : V → V → Prop} {leaf : V → Prop}

theorem Chain.reaches {n : Nat} {v : V} (h : Chain next leaf n v) : ∃ w, ReflTransGen next v w ∧ leaf w := by
  induction h with
  | leaf h => exact ⟨_, .refl, h⟩
  | step h _ ih =>
    obtain ⟨w, hw, hleaf⟩ := ih
    exact ⟨w, .head h hw, hleaf⟩

variable [BEq V] [LawfulBEq V] {places : List V} (hplaces : ∀ v w, next v w → v ∈ places)

include hplaces

/-- A search that keeps the vertices themselves takes no more steps than there are vertices to start a step from. -/
private theorem Finds.chain_le {path : List V} {v : V} (h : Finds some next leaf path v) (hnodup : path.Nodup)
    (hpath : path ⊆ places) : ∃ n, n + path.length ≤ places.length ∧ Chain next leaf n v := by
  induction h with
  | leaf _ h =>
    have hlength := (List.subperm_of_subset hnodup hpath).length_le
    exact ⟨0, by omega, .leaf h⟩
  | @step path v w hopen h _ ih =>
    have hnew : v ∉ path := by
      intro hmem
      have hseen := hopen v rfl
      rw [List.contains_iff_mem.2 hmem] at hseen
      cases hseen
    obtain ⟨n, hn, hchain⟩ :=
      ih (List.nodup_cons.2 ⟨hnew, hnodup⟩) (List.cons_subset.2 ⟨hplaces v w h, hpath⟩)
    rw [inside, Option.toList_some, List.singleton_append, List.length_cons] at hn
    exact ⟨n + 1, by omega, .step h hchain⟩

/-- What can be reached is reached in no more steps than there are vertices to start a step from. -/
theorem exists_chain_le {v w : V} (h : ReflTransGen next v w) (hw : leaf w) :
    ∃ n ≤ places.length, Chain next leaf n v := by
  have hin : ∀ v w : V, True → next v w → True := fun _ _ _ _ => trivial
  have hkey : ∀ v w k l : V, True → True → some v = some k → some w = some l → (k == l) = true → v = w := by
    rintro v w k l - - hv hw heq
    rw [Option.some.inj hv, Option.some.inj hw]
    exact beq_iff_eq.1 heq
  have hfinds : Finds some next leaf [] v := (finds_nil_iff hin hkey trivial).2 ⟨w, h, hw⟩
  obtain ⟨n, hn, hchain⟩ := hfinds.chain_le hplaces List.nodup_nil (List.nil_subset places)
  exact ⟨n, hn, hchain⟩

end

/-! ### Numbers along the steps -/

/-- The vertices of a list among which no steps lead back have numbers that decrease along the steps. -/
theorem exists_rank {V : Type} {next : V → V → Prop} {places : List V}
    (hin : ∀ v w, v ∈ places → next v w → w ∈ places) (hacyclic : ∀ v, v ∈ places → ¬TransGen next v v) :
    ∃ rank : V → Nat, (∀ v ∈ places, 0 < rank v ∧ rank v ≤ places.length) ∧
      ∀ v w, v ∈ places → next v w → rank w < rank v := by
  classical
  -- the number of vertices that can be reached, and one more
  let below (v : V) : Set V := {w | TransGen next v w}
  have hbelow : ∀ v ∈ places, ∀ w ∈ below v, w ∈ places := by
    intro v hv w hw
    induction hw with
    | single h => exact hin v _ hv h
    | tail _ h ih => exact hin _ _ ih h
  have hfinite : ∀ v ∈ places, (below v).Finite := fun v hv =>
    places.toFinset.finite_toSet.subset fun w hw => by simpa using hbelow v hv w hw
  refine ⟨fun v => (below v).ncard + 1, fun v hv => ⟨Nat.succ_pos _, ?_⟩, fun v w hv hvw => ?_⟩
  · have hsub : below v ⊆ ↑(places.toFinset.erase v) := by
      intro w hw
      have hne : w ≠ v := by
        rintro rfl
        exact hacyclic w hv hw
      simpa [hne] using hbelow v hv w hw
    have hcard := Set.ncard_le_ncard hsub (Finset.finite_toSet _)
    rw [Set.ncard_coe_finset, Finset.card_erase_of_mem (by simpa using hv)] at hcard
    have hlen := places.toFinset_card_le
    have hpos : 0 < places.toFinset.card := Finset.card_pos.2 ⟨v, by simpa using hv⟩
    show (below v).ncard + 1 ≤ places.length
    omega
  · have hw := hin v w hv hvw
    have hlt : (below w).ncard < (below v).ncard := by
      refine Set.ncard_lt_ncard ⟨fun u hu => .head hvw hu, fun hle => ?_⟩ (hfinite v hv)
      exact hacyclic w hw (hle (.single hvw))
    exact Nat.succ_lt_succ hlt

end Disposal.Search
