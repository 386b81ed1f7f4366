import Disposal.Exclusion
import Disposal.Rule

/-!
# Registries

The rules of a run in the order in which they were put in, with an index that says which of them look at nodes with a
word for a label: the name of a kind, or the text of a token. The rules are handed the nodes of a document one after the
other, less those that are left out.

* `Registry.lt_of_mem_positions`: the index names rules of the registry only.
-/

namespace Disposal

/-- For each word, the positions of the rules that look at nodes with the word. -/
abbrev KindIndex := List (String × List Nat)

namespace KindIndex

/-- Puts a position behind those of a word. -/
def enter (position : Nat) (index : KindIndex) (k : String) : KindIndex :=
  match index with
  | [] => [(k, [position])]
  | (k', positions) :: rest =>
    if k' = k then (k', positions ++ [position]) :: rest else (k', positions) :: enter position rest k

/-- The positions that are entered for a word. -/
def positions (index : KindIndex) (k : String) : List Nat := (index.lookup k).getD []

/-- Every position is below a bound. -/
def IsBelow (bound : Nat) (index : KindIndex) : Prop := ∀ entry ∈ index, ∀ i ∈ entry.2, i < bound

theorem IsBelow.enter {bound position : Nat} {index : KindIndex} (h : index.IsBelow bound) (hp : position < bound)
    (k : String) : (enter position index k).IsBelow bound := by
  induction index with
  | nil => simpa [KindIndex.enter, IsBelow] using hp
  | cons entry rest ih =>
    obtain ⟨k', is⟩ := entry
    have hhead := h (k', is) List.mem_cons_self
    have hrest : IsBelow bound rest := fun entry he => h entry (List.mem_cons_of_mem _ he)
    unfold KindIndex.enter
    split
    · intro entry he i hi
      rcases List.mem_cons.1 he with rfl | he
      · rcases List.mem_append.1 hi with hi | hi
        · exact hhead i hi
        · rwa [List.mem_singleton.1 hi]
      · exact hrest entry he i hi
    · intro entry he i hi
      rcases List.mem_cons.1 he with rfl | he
      · exact hhead i hi
      · exact ih hrest entry he i hi

theorem IsBelow.enterAll {bound position : Nat} {index : KindIndex} (h : index.IsBelow bound) (hp : position < bound)
    (ks : List String) : (ks.foldl (KindIndex.enter position) index).IsBelow bound := by
  induction ks generalizing index with
  | nil => exact h
  | cons k ks ih => exact ih (h.enter hp k)

theorem IsBelow.lt_of_mem_positions {bound i : Nat} {index : KindIndex} (h : index.IsBelow bound) {k : String}
    (hi : i ∈ index.positions k) : i < bound := by
  unfold positions at hi
  cases hk : index.lookup k with
  | none =>
    rw [hk] at hi
    cases hi
  | some is =>
    rw [hk] at hi
    obtain ⟨l₁, l₂, rfl, -⟩ := List.lookup_eq_some_iff.1 hk
    exact h (k, is) (by simp) i hi

end KindIndex

/-- Rules in the order in which they were put in, and the index that belongs to them. -/
structure Registry where
  rules : List Rule
  index : KindIndex
  isBelow : index.IsBelow rules.length

namespace Registry

def empty : Registry := ⟨[], [], nofun⟩

/-- Puts a rule behind the others and enters it for every word that it lists. -/
def push (g : Registry) (r : Rule) : Registry where
  rules := g.rules ++ [r]
  index := r.kinds.foldl (KindIndex.enter g.rules.length) g.index
  isBelow := by
    have hlen : (g.rules ++ [r]).length = g.rules.length + 1 := by simp
    rw [hlen]
    exact KindIndex.IsBelow.enterAll (fun entry he i hi => Nat.lt_succ_of_lt (g.isBelow entry he i hi))
      (Nat.lt_succ_self _) r.kinds

/-- The registry into which some rules were put one after the other. -/
def ofRules (rules : List Rule) : Registry := rules.foldl push empty

theorem lt_of_mem_positions {g : Registry} {k : String} {i : Nat} (h : i ∈ g.index.positions k) : i < g.rules.length :=
  g.isBelow.lt_of_mem_positions h

/-- The rules that look at nodes with a word. -/
def subscribers (g : Registry) (k : String) : List Rule :=
  (g.index.positions k).pmap (fun i h => g.rules.get ⟨i, h⟩) fun _ => lt_of_mem_positions

/-- The rules that look at a node. -/
def rulesFor (g : Registry) (n : Node) : List Rule := g.subscribers n.label.text

/-- Which rules look at which nodes below a root: node after node in preorder, at each node rule after rule. -/
def dispatch (g : Registry) (exclusion : Exclusion) (root : Node) : List (Rule × Node) :=
  (exclusion.visible root).flatMap fun n => (g.rulesFor n).map (·, n)

end Registry

/-- The rules that look at nodes with a word, of some that are put into a registry. -/
def Rule.subscribers (rules : List Rule) (k : String) : List Rule := (Registry.ofRules rules).subscribers k

end Disposal
