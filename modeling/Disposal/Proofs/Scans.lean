import Mathlib.Data.List.Nodup
import Disposal.Member
import Disposal.Proofs.Declarations

/-!
# Scans through helpers

A scan enters the helpers that a body calls, and never enters one twice, whichever body it was first called from. It
finds what is released in all bodies that can be reached, so that neither the order of bodies nor that of calls matters,
and it comes to an end whatever calls whatever.

* `Model.Scanner.explores_scan`: after a scan, what was entered is covered;
* `Model.Scanner.agrees_scan`: scans are not nested deeper than there are nodes;
* `Model.Scanner.mem_released_iff`: a scan finds what is released in the bodies that can be reached;
* `Model.Scanner.completes_eq`: stopping as soon as all is released makes no difference;
* `Model.Scanner.Rearranges.completes_eq`: nor does the order in which things are met.
-/

namespace Disposal

theorem Compilation.size_lt_limit (c : Compilation) : c.size < c.model.limit := by
  calc c.size < 6 * (c.size + 1) := by omega
    _ ≤ 6 * (c.size + 1) * (c.size + 1) := Nat.le_mul_of_pos_right _ (Nat.succ_pos _)

/-- There are no more different places than nodes. -/
theorem Compilation.length_le_size (c : Compilation) {ns : List Node} (hplaces : ∀ n ∈ ns, c.HasPlace n)
    (hdistinct : ns.Pairwise fun a b => (a == b) = false) : ns.length ≤ c.size := by
  have hnodup : (ns.map Node.id).Nodup := by
    refine List.pairwise_map.2 (hdistinct.imp ?_)
    intro a b hab heq
    rw [Node.beq_iff.2 heq] at hab
    cases hab
  have hsub : ns.map Node.id ⊆ c.places.map Node.id := by
    intro i hi
    obtain ⟨n, hn, rfl⟩ := List.mem_map.1 hi
    exact List.mem_map_of_mem (hplaces n hn).mem_places
  calc ns.length = (ns.map Node.id).length := (List.length_map ..).symm
    _ ≤ (c.places.map Node.id).length := hnodup.length_le_of_subset hsub
    _ = c.size := by rw [List.length_map, c.length_places]

namespace Model

/-! ### What is entered -/

/-- What a scan has entered are different methods of the compilation. -/
structure Scan.IsIn (c : Compilation) (s : Scan) : Prop where
  places : ∀ h ∈ s.entered, c.HasPlace h
  distinct : s.entered.Pairwise fun a b => (a == b) = false

theorem Scan.IsIn.start (c : Compilation) : Scan.start.IsIn c := ⟨by simp [Scan.start], by simp [Scan.start]⟩

theorem Scan.IsIn.cons {c : Compilation} {s : Scan} (hs : s.IsIn c) {h : Node} (hplace : c.HasPlace h)
    (hnew : s.entered.any (· == h) = false) : Scan.IsIn c { s with entered := h :: s.entered } := by
  constructor
  · intro k hk
    rcases List.mem_cons.1 hk with rfl | hk
    · exact hplace
    · exact hs.places k hk
  · refine List.pairwise_cons.2 ⟨?_, hs.distinct⟩
    intro k hk
    rw [List.any_eq_false] at hnew
    have hne := hnew k hk
    rw [Bool.eq_false_iff]
    intro heq
    exact hne (Node.beq_iff.2 (Node.beq_iff.1 heq).symm)

/-- No more methods are entered than there are nodes. -/
theorem Scan.IsIn.length_le {c : Compilation} {s : Scan} (hs : s.IsIn c) : s.entered.length ≤ c.size :=
  c.length_le_size hs.places hs.distinct

namespace Scanner

variable {sc : Scanner}

/-- All that a body releases has been noted, and the helpers that it calls have been entered. -/
structure Covers (sc : Scanner) (s : Scan) (body : Node) : Prop where
  released : ∀ r ∈ sc.releases body, r ∈ s.released
  entered : ∀ h ∈ sc.helpers body, s.entered.any (· == h) = true

/-- A scan has gone on, and what it has entered since is covered. -/
structure Extends (sc : Scanner) (s s' : Scan) : Prop where
  entered : ∀ h ∈ s.entered, h ∈ s'.entered
  length : s.entered.length ≤ s'.entered.length
  released : ∀ r ∈ s.released, r ∈ s'.released
  covers : ∀ h ∈ s'.entered, h ∈ s.entered ∨ ∀ body, h.body? = some body → sc.Covers s' body

private theorem Covers.mono {s s' : Scan} {body : Node} (h : sc.Covers s body) (hs : sc.Extends s s') :
    sc.Covers s' body where
  released r hr := hs.released r (h.released r hr)
  entered k hk := by
    obtain ⟨j, hj, hjk⟩ := List.any_eq_true.1 (h.entered k hk)
    exact List.any_eq_true.2 ⟨j, hs.entered j hj, hjk⟩

theorem Extends.refl (s : Scan) : sc.Extends s s :=
  ⟨fun _ h => h, Nat.le_refl _, fun _ h => h, fun _ h => .inl h⟩

theorem Extends.trans {s s' s'' : Scan} (h : sc.Extends s s') (h' : sc.Extends s' s'') : sc.Extends s s'' where
  entered k hk := h'.entered k (h.entered k hk)
  length := Nat.le_trans h.length h'.length
  released r hr := h'.released r (h.released r hr)
  covers k hk := by
    rcases h'.covers k hk with hk | hk
    · rcases h.covers k hk with hk | hk
      · exact .inl hk
      · exact .inr fun body hbody => (hk body hbody).mono h'
    · exact .inr hk

/-- From one scan another was got by scanning some bodies. -/
structure Explored (sc : Scanner) (c : Compilation) (bodies : List Node) (s s' : Scan) : Prop where
  isIn : s'.IsIn c
  goesOn : sc.Extends s s'
  covers : ∀ body ∈ bodies, sc.Covers s' body

/-- Scanning with room for so many helpers explores the bodies that are scanned. -/
def Explores (sc : Scanner) (c : Compilation) (room : Nat) (go : Scan → List Node → Scan) : Prop :=
  ∀ s bodies, s.IsIn c → c.size < room + s.entered.length → (∀ body ∈ bodies, c.HasPlace body) →
    sc.Explored c bodies s (go s bodies)

section

variable {c : Compilation} {room : Nat} {go : Scan → List Node → Scan} (hgo : sc.Explores c room go)

include hgo

/-- One step: a helper is entered, and then its body is covered. -/
theorem Explores.enter {s : Scan} (hs : s.IsIn c) (hroom : c.size < room + 1 + s.entered.length) {h : Node}
    (hplace : c.HasPlace h) :
    (Scan.enter go s h).IsIn c ∧ sc.Extends s (Scan.enter go s h) ∧
      (Scan.enter go s h).entered.any (· == h) = true := by
  unfold Scan.enter
  split
  · next hmet => exact ⟨hs, .refl s, hmet⟩
  · next hnew =>
    rw [Bool.not_eq_true] at hnew
    have hbodies : ∀ body ∈ h.body?.toList, c.HasPlace body := by
      intro body hbody
      exact hplace.of_body? (Option.mem_toList.1 hbody)
    have hroom' : c.size < room + (h :: s.entered).length := by
      rw [List.length_cons]
      omega
    have hgone := hgo { s with entered := h :: s.entered } h.body?.toList (hs.cons hplace hnew) hroom' hbodies
    have hmem := hgone.goesOn.entered h List.mem_cons_self
    refine ⟨hgone.isIn, ⟨?_, ?_, hgone.goesOn.released, ?_⟩, List.any_eq_true.2 ⟨h, hmem, Node.beq_refl h⟩⟩
    · intro k hk
      exact hgone.goesOn.entered k (List.mem_cons_of_mem h hk)
    · have hlen := hgone.goesOn.length
      rw [List.length_cons] at hlen
      omega
    · intro k hk
      rcases hgone.goesOn.covers k hk with hk | hk
      · rcases List.mem_cons.1 hk with rfl | hk
        · exact .inr fun body hbody => hgone.covers body (Option.mem_toList.2 hbody)
        · exact .inl hk
      · exact .inr hk

theorem Explores.enterAll {hs : List Node} (hplaces : ∀ h ∈ hs, c.HasPlace h) {s : Scan} (hin : s.IsIn c)
    (hroom : c.size < room + 1 + s.entered.length) :
    (hs.foldl (Scan.enter go) s).IsIn c ∧ sc.Extends s (hs.foldl (Scan.enter go) s) ∧
      ∀ h ∈ hs, (hs.foldl (Scan.enter go) s).entered.any (· == h) = true := by
  induction hs generalizing s with
  | nil => exact ⟨hin, .refl s, by simp⟩
  | cons h hs ih =>
    obtain ⟨hin₁, hext₁, hmet⟩ := hgo.enter hin hroom (hplaces h List.mem_cons_self)
    have hlen := hext₁.length
    obtain ⟨hin₂, hext₂, hall⟩ := ih (fun k hk => hplaces k (List.mem_cons_of_mem h hk)) hin₁ (by omega)
    refine ⟨hin₂, hext₁.trans hext₂, ?_⟩
    intro k hk
    rcases List.mem_cons.1 hk with rfl | hk
    · obtain ⟨j, hj, hjk⟩ := List.any_eq_true.1 hmet
      exact List.any_eq_true.2 ⟨j, hext₂.entered j hj, hjk⟩
    · exact hall k hk

variable (hin : ∀ body, c.HasPlace body → ∀ h ∈ sc.helpers body, c.HasPlace h)

include hin

theorem Explores.scanBody {s : Scan} (hs : s.IsIn c) (hroom : c.size < room + 1 + s.entered.length) {body : Node}
    (hplace : c.HasPlace body) : sc.Explored c [body] s (sc.scanBody go s body) := by
  let noted : Scan := { s with released := s.released ++ sc.releases body }
  have hnoted : noted.IsIn c := ⟨hs.places, hs.distinct⟩
  have hext : sc.Extends s noted :=
    ⟨fun _ h => h, Nat.le_refl _, fun _ h => List.mem_append_left _ h, fun _ h => .inl h⟩
  obtain ⟨hin', hext', hall⟩ := hgo.enterAll (hin body hplace) hnoted hroom
  refine ⟨hin', hext.trans hext', ?_⟩
  intro k hk
  rw [List.mem_singleton.1 hk]
  exact ⟨fun r hr => hext'.released r (List.mem_append_right _ hr), hall⟩

private theorem Explores.scanBodies {bodies : List Node} (hplaces : ∀ body ∈ bodies, c.HasPlace body) {s : Scan}
    (hs : s.IsIn c) (hroom : c.size < room + 1 + s.entered.length) :
    sc.Explored c bodies s (bodies.foldl (sc.scanBody go) s) := by
  induction bodies generalizing s with
  | nil => exact ⟨hs, .refl s, by simp⟩
  | cons body bodies ih =>
    have hfirst := hgo.scanBody hin hs hroom (hplaces body List.mem_cons_self)
    have hlen := hfirst.goesOn.length
    have hrest := ih (fun k hk => hplaces k (List.mem_cons_of_mem body hk)) hfirst.isIn (by omega)
    refine ⟨hrest.isIn, hfirst.goesOn.trans hrest.goesOn, ?_⟩
    intro k hk
    rcases List.mem_cons.1 hk with rfl | hk
    · exact (hfirst.covers k List.mem_cons_self).mono hrest.goesOn
    · exact hrest.covers k hk

end

/-- Scans nested as deep as there is room for helpers explore the bodies that are scanned. -/
theorem explores_scan {c : Compilation} (hin : ∀ body, c.HasPlace body → ∀ h ∈ sc.helpers body, c.HasPlace h)
    (depth : Nat) : sc.Explores c depth (sc.scan depth) := by
  induction depth with
  | zero =>
    intro s bodies hs hroom
    have := hs.length_le
    omega
  | succ depth ih =>
    intro s bodies hs hroom hplaces
    exact ih.scanBodies hin hplaces hs hroom

/-! ### The end of a scan -/

section

variable {c : Compilation} (hin : ∀ body, c.HasPlace body → ∀ h ∈ sc.helpers body, c.HasPlace h)

/-- Two ways of scanning come to the same where there is room for so many helpers. -/
def Agrees (c : Compilation) (room : Nat) (go go' : Scan → List Node → Scan) : Prop :=
  ∀ s bodies, s.IsIn c → c.size < room + s.entered.length → (∀ body ∈ bodies, c.HasPlace body) →
    go s bodies = go' s bodies

theorem Agrees.enterAll {room : Nat} {go go' : Scan → List Node → Scan} (hgo : sc.Explores c room go)
    (h : Agrees c room go go') {hs : List Node} (hplaces : ∀ k ∈ hs, c.HasPlace k) {s : Scan} (hs' : s.IsIn c)
    (hroom : c.size < room + 1 + s.entered.length) : hs.foldl (Scan.enter go) s = hs.foldl (Scan.enter go') s := by
  induction hs generalizing s with
  | nil => rfl
  | cons k hs ih =>
    have hk := hplaces k List.mem_cons_self
    have hstep : Scan.enter go s k = Scan.enter go' s k := by
      unfold Scan.enter
      split
      · rfl
      · next hnew =>
        rw [Bool.not_eq_true] at hnew
        refine h _ _ (hs'.cons hk hnew) ?_ fun body hbody => hk.of_body? (Option.mem_toList.1 hbody)
        rw [List.length_cons]
        omega
    obtain ⟨hin₁, hext, -⟩ := hgo.enter hs' hroom hk
    have hlen := hext.length
    rw [List.foldl_cons, List.foldl_cons, ← hstep]
    exact ih (fun j hj => hplaces j (List.mem_cons_of_mem k hj)) hin₁ (by omega)

include hin in
private theorem Agrees.scanBodies {room : Nat} {go go' : Scan → List Node → Scan} (hgo : sc.Explores c room go)
    (h : Agrees c room go go') {bodies : List Node} (hplaces : ∀ body ∈ bodies, c.HasPlace body) {s : Scan}
    (hs : s.IsIn c) (hroom : c.size < room + 1 + s.entered.length) :
    bodies.foldl (sc.scanBody go) s = bodies.foldl (sc.scanBody go') s := by
  induction bodies generalizing s with
  | nil => rfl
  | cons body bodies ih =>
    have hbody := hplaces body List.mem_cons_self
    have hnoted : Scan.IsIn c { s with released := s.released ++ sc.releases body } := ⟨hs.places, hs.distinct⟩
    have hstep : sc.scanBody go s body = sc.scanBody go' s body := h.enterAll hgo (hin body hbody) hnoted hroom
    have hfirst := hgo.scanBody hin hs hroom hbody
    have hlen := hfirst.goesOn.length
    rw [List.foldl_cons, List.foldl_cons, ← hstep]
    exact ih (fun k hk => hplaces k (List.mem_cons_of_mem body hk)) hfirst.isIn (by omega)

include hin in
/-- Scans do not come to an end because they are nested too deep: more depth changes nothing. -/
theorem agrees_scan {depth depth' : Nat} (hle : depth ≤ depth') :
    Agrees c depth (sc.scan depth) (sc.scan depth') := by
  induction depth generalizing depth' with
  | zero =>
    intro s bodies hs hroom
    have := hs.length_le
    omega
  | succ depth ih =>
    obtain ⟨depth', rfl⟩ : ∃ d, depth' = d + 1 := ⟨depth' - 1, by omega⟩
    intro s bodies hs hroom hplaces
    exact (ih (by omega)).scanBodies hin (explores_scan hin depth) hplaces hs hroom

include hin in
theorem foldl_scan_congr {groups : List (List Node)} (hgroups : ∀ body ∈ groups.flatten, c.HasPlace body) {s : Scan}
    (hs : s.IsIn c) {depth depth' : Nat} (hdepth : c.size < depth)
    (hdepth' : c.size < depth') : groups.foldl (sc.scan depth) s = groups.foldl (sc.scan depth') s := by
  induction groups generalizing s with
  | nil => rfl
  | cons bodies groups ih =>
    have hbodies : ∀ body ∈ bodies, c.HasPlace body := fun body hbody => hgroups body (List.mem_append_left _ hbody)
    have hstep : sc.scan depth s bodies = sc.scan depth' s bodies := by
      rcases Nat.le_total depth depth' with hle | hle
      · exact agrees_scan hin hle s bodies hs (by omega) hbodies
      · exact (agrees_scan hin hle s bodies hs (by omega) hbodies).symm
    have hfirst := explores_scan hin depth s bodies hs (by omega) hbodies
    rw [List.foldl_cons, List.foldl_cons, ← hstep]
    exact ih (fun body hbody => hgroups body (List.mem_append_right _ hbody)) hfirst.isIn

end

/-! ### What is reached -/

/-- The bodies that can be reached from some bodies through the helpers that are called. -/
inductive Reaches (sc : Scanner) (roots : Node → Prop) : Node → Prop where
  | root {body : Node} (h : roots body) : Reaches sc roots body
  | helper {body h body' : Node} (hbody : Reaches sc roots body) (hh : h ∈ sc.helpers body)
      (hbody' : h.body? = some body') : Reaches sc roots body'

/-- All that has been noted is released in bodies that can be reached. -/
def Finds (sc : Scanner) (roots : Node → Prop) (s : Scan) : Prop :=
  ∀ r ∈ s.released, ∃ body, sc.Reaches roots body ∧ r ∈ sc.releases body

theorem Finds.scan {roots : Node → Prop} {depth : Nat} {s : Scan} {bodies : List Node}
    (hbodies : ∀ body ∈ bodies, sc.Reaches roots body) (hs : sc.Finds roots s) :
    sc.Finds roots (sc.scan depth s bodies) := by
  induction depth generalizing s bodies with
  | zero => exact hs
  | succ depth ih =>
    refine List.foldlRecOn bodies _ hs ?_
    intro s hs body hbody
    have hreach := hbodies body hbody
    have hnoted : sc.Finds roots { s with released := s.released ++ sc.releases body } := by
      intro r hr
      rcases List.mem_append.1 hr with hr | hr
      · exact hs r hr
      · exact ⟨body, hreach, hr⟩
    refine List.foldlRecOn (sc.helpers body) _ hnoted ?_
    intro s hs h hh
    unfold Scan.enter
    split
    · exact hs
    · exact ih (fun body' hbody' => .helper hreach hh (Option.mem_toList.1 hbody')) hs

variable {c : Compilation} (hin : ∀ body, c.HasPlace body → ∀ h ∈ sc.helpers body, c.HasPlace h) {depth : Nat}
  (hdepth : c.size < depth) {groups : List (List Node)} (hgroups : ∀ body ∈ groups.flatten, c.HasPlace body)

include hin hdepth hgroups

/-- Scanning one group after the other, with all that was entered before left out. -/
private theorem explored_groups {s : Scan} (hs : s.IsIn c) :
    sc.Explored c groups.flatten s (groups.foldl (sc.scan depth) s) := by
  induction groups generalizing s with
  | nil => exact ⟨hs, .refl s, by simp⟩
  | cons bodies groups ih =>
    have hfirst := explores_scan hin depth s bodies hs (by omega)
      fun body hbody => hgroups body (List.mem_append_left _ hbody)
    have hrest := ih (fun body hbody => hgroups body (List.mem_append_right _ hbody)) hfirst.isIn
    refine ⟨hrest.isIn, hfirst.goesOn.trans hrest.goesOn, ?_⟩
    intro body hbody
    rcases List.mem_append.1 hbody with hbody | hbody
    · exact (hfirst.covers body hbody).mono hrest.goesOn
    · exact hrest.covers body hbody

omit hdepth in
/-- When a scan is over, all bodies that can be reached are covered. -/
private theorem Explored.covers_of_reaches {s : Scan} (h : sc.Explored c groups.flatten .start s) {body : Node}
    (hbody : sc.Reaches (· ∈ groups.flatten) body) : c.HasPlace body ∧ sc.Covers s body := by
  induction hbody with
  | root hmem => exact ⟨hgroups _ hmem, h.covers _ hmem⟩
  | @helper body k body' _ hk hbody' ih =>
    obtain ⟨hplace, hcovers⟩ := ih
    have hkplace := hin body hplace k hk
    refine ⟨hkplace.of_body? hbody', ?_⟩
    obtain ⟨j, hj, hjk⟩ := List.any_eq_true.1 (hcovers.entered k hk)
    obtain rfl := (h.isIn.places j hj).eq_of_id hkplace (Node.beq_iff.1 hjk)
    rcases h.goesOn.covers j hj with hj | hj
    · cases hj
    · exact hj body' hbody'

/-- What a scan notes is what the bodies that can be reached release. -/
theorem mem_released_iff {r : Released} :
    r ∈ (groups.foldl (sc.scan depth) .start).released ↔
      ∃ body, sc.Reaches (· ∈ groups.flatten) body ∧ r ∈ sc.releases body := by
  constructor
  · have hfinds : sc.Finds (· ∈ groups.flatten) (groups.foldl (sc.scan depth) .start) := by
      refine List.foldlRecOn groups _ (fun r hr => by cases hr) ?_
      intro s hs bodies hbodies
      exact hs.scan fun body hbody => .root (List.mem_flatten.2 ⟨bodies, hbodies, hbody⟩)
    exact hfinds r
  · rintro ⟨body, hbody, hr⟩
    have hexplored := explored_groups hin hdepth hgroups (Scan.IsIn.start c)
    exact (hexplored.covers_of_reaches hin hgroups hbody).2.released r hr

end Scanner

/-! ### When all is released -/

/-- The parts that can be disposed all satisfy a property, or the whole does if there are none. -/
def IsAllOf (slots? : Option (List Bool)) (p : Released → Prop) : Prop :=
  match slots? with
  | some slots => ∀ i, slots[i]? = some true → p (.slot i)
  | none => p .whole

theorem IsAllOf.imp {slots? : Option (List Bool)} {p q : Released → Prop} (h : IsAllOf slots? p)
    (hpq : ∀ r, p r → q r) : IsAllOf slots? q := by
  cases slots? with
  | none => exact hpq _ h
  | some slots => exact fun i hi => hpq _ (h i hi)

theorem isComplete_iff {slots? : Option (List Bool)} {rs : List Released} :
    isComplete slots? rs = true ↔ IsAllOf slots? (· ∈ rs) := by
  cases slots? with
  | none => simp [isComplete, IsAllOf]
  | some slots =>
    simp only [isComplete, IsAllOf, List.all_eq_true, Bool.or_eq_true, Bool.not_eq_true', List.contains_iff_mem]
    constructor
    · intro h i hi
      have hmem : (true, i) ∈ slots.zipIdx := List.mem_zipIdx_iff_getElem?.2 hi
      exact (h _ hmem).resolve_left (by simp)
    · rintro h ⟨disposable, i⟩ hmem
      rw [List.mem_zipIdx_iff_getElem?] at hmem
      cases disposable with
      | false => exact .inl rfl
      | true => exact .inr (h i hmem)

namespace Scanner

variable {sc : Scanner} {c : Compilation} (hin : ∀ body, c.HasPlace body → ∀ h ∈ sc.helpers body, c.HasPlace h)
  {depth : Nat} (hdepth : c.size < depth) {groups : List (List Node)} {slots? : Option (List Bool)}
  (hgroups : ∀ body ∈ groups.flatten, c.HasPlace body)

include hin hdepth hgroups

/-- Stopping early makes no difference. -/
theorem completes_eq {s : Scan} (hs : s.IsIn c) (hopen : isComplete slots? s.released = false) :
    sc.completes depth slots? s groups = isComplete slots? (groups.foldl (sc.scan depth) s).released := by
  induction groups generalizing s with
  | nil => exact hopen.symm
  | cons bodies groups ih =>
    have hfirst := explores_scan hin depth s bodies hs (by omega)
      fun body hbody => hgroups body (List.mem_append_left _ hbody)
    have hgroups' : ∀ body ∈ groups.flatten, c.HasPlace body := fun body hbody =>
      hgroups body (List.mem_append_right _ hbody)
    rw [completes, List.foldl_cons]
    cases hdone : isComplete slots? (sc.scan depth s bodies).released with
    | false =>
      rw [Bool.false_or]
      exact ih hgroups' hfirst.isIn hdone
    | true =>
      have hrest := explored_groups hin hdepth hgroups' hfirst.isIn
      rw [Bool.true_or, eq_comm, isComplete_iff]
      exact (isComplete_iff.1 hdone).imp hrest.goesOn.released

theorem completes_iff (hopen : isComplete slots? [] = false) :
    sc.completes depth slots? .start groups = true ↔
      IsAllOf slots? fun r => ∃ body, sc.Reaches (· ∈ groups.flatten) body ∧ r ∈ sc.releases body := by
  rw [completes_eq hin hdepth hgroups (Scan.IsIn.start c) hopen, isComplete_iff]
  have hiff := fun r => mem_released_iff (r := r) hin hdepth hgroups
  exact ⟨fun h => h.imp fun r => (hiff r).1, fun h => h.imp fun r => (hiff r).2⟩

end Scanner

/-! ### Other orders -/

namespace Scanner

/-- In each body two scanners find the same, and the same bodies are scanned, in whatever order and however often. -/
structure Rearranges (sc sc' : Scanner) (groups groups' : List (List Node)) : Prop where
  releases : ∀ body r, r ∈ sc'.releases body ↔ r ∈ sc.releases body
  helpers : ∀ body h, h ∈ sc'.helpers body ↔ h ∈ sc.helpers body
  bodies : ∀ body, body ∈ groups'.flatten ↔ body ∈ groups.flatten

private theorem Rearranges.reaches_iff {sc sc' : Scanner} {groups groups' : List (List Node)}
    (h : Rearranges sc sc' groups groups') {body : Node} :
    sc'.Reaches (· ∈ groups'.flatten) body ↔ sc.Reaches (· ∈ groups.flatten) body := by
  constructor
  · intro hbody
    induction hbody with
    | root hmem => exact .root ((h.bodies _).1 hmem)
    | helper _ hh hbody' ih => exact .helper ih ((h.helpers _ _).1 hh) hbody'
  · intro hbody
    induction hbody with
    | root hmem => exact .root ((h.bodies _).2 hmem)
    | helper _ hh hbody' ih => exact .helper ih ((h.helpers _ _).2 hh) hbody'

theorem Rearranges.completes_eq {sc sc' : Scanner} {groups groups' : List (List Node)} {c : Compilation}
    (h : Rearranges sc sc' groups groups') (hin : ∀ body, c.HasPlace body → ∀ k ∈ sc.helpers body, c.HasPlace k)
    (hgroups : ∀ body ∈ groups.flatten, c.HasPlace body) {depth depth' : Nat} (hdepth : c.size < depth)
    (hdepth' : c.size < depth') {slots? : Option (List Bool)} (hopen : isComplete slots? [] = false) :
    sc'.completes depth' slots? .start groups' = sc.completes depth slots? .start groups := by
  have hin' : ∀ body, c.HasPlace body → ∀ k ∈ sc'.helpers body, c.HasPlace k := fun body hbody k hk =>
    hin body hbody k ((h.helpers body k).1 hk)
  have hgroups' : ∀ body ∈ groups'.flatten, c.HasPlace body := fun body hbody =>
    hgroups body ((h.bodies body).1 hbody)
  rw [Bool.eq_iff_iff, completes_iff hin' hdepth' hgroups' hopen, completes_iff hin hdepth hgroups hopen]
  have hiff : ∀ r, (∃ body, sc'.Reaches (· ∈ groups'.flatten) body ∧ r ∈ sc'.releases body) ↔
      ∃ body, sc.Reaches (· ∈ groups.flatten) body ∧ r ∈ sc.releases body := by
    intro r
    constructor
    · rintro ⟨body, hbody, hr⟩
      exact ⟨body, h.reaches_iff.1 hbody, (h.releases body r).1 hr⟩
    · rintro ⟨body, hbody, hr⟩
      exact ⟨body, h.reaches_iff.2 hbody, (h.releases body r).2 hr⟩
  exact ⟨fun h => h.imp fun r => (hiff r).1, fun h => h.imp fun r => (hiff r).2⟩

end Scanner

end Model

end Disposal
