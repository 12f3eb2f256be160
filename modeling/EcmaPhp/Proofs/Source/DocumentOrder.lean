import EcmaPhp.Program
import EcmaPhp.Proofs.Source.Leaves

/-! Document order: what the searches through a concrete tree find, and in which order, although
each of them only keeps the nodes that wait to be looked at. -/
namespace EcmaPhp
namespace Concrete

/-- The node at an address, which gives the numbers of the children on the way down to it. -/
def at? : Concrete → List Nat → Option Concrete
  | c, [] => some c
  | c, i :: address => c.children[i]?.bind (at? · address)

mutual
/-- All nodes with their addresses, each before its children. -/
def placements : Concrete → List (List Nat × Concrete)
  | ⟨kind, named, missing, start, stop, field, children⟩ =>
    ([], ⟨kind, named, missing, start, stop, field, children⟩) :: placementsAll 0 children
/-- The same for siblings, the first of which has the number `first`. -/
def placementsAll (first : Nat) : List Concrete → List (List Nat × Concrete)
  | [] => []
  | c :: rest => c.placements.map (fun p => (first :: p.1, p.2)) ++ placementsAll (first + 1) rest
end

theorem placements_eq (c : Concrete) : c.placements = ([], c) :: placementsAll 0 c.children := by
  cases c
  rw [placements]

section Placements

variable {c : Concrete} {cs : List Concrete} {first : Nat} {p : List Nat × Concrete}

theorem map_snd_placementsAll (h : ∀ c ∈ cs, c.placements.map (·.2) = c.preorder) (first : Nat) :
    (placementsAll first cs).map (·.2) = preorderAll cs := by
  induction cs generalizing first with
  | nil => rw [placementsAll, preorderAll, List.map_nil]
  | cons c rest ih =>
    have hrest := ih (fun d hd => h d (by simp [hd])) (first + 1)
    rw [placementsAll, preorderAll, List.map_append, List.map_map, hrest, ← h c (by simp)]
    rfl

/-- Addresses apart, the nodes come in preorder. -/
theorem map_snd_placements (c : Concrete) : c.placements.map (·.2) = c.preorder := by
  induction c using induction_children with
  | h c ih => rw [placements_eq, preorder_eq, List.map_cons, map_snd_placementsAll ih]

theorem mem_placementsAll : p ∈ placementsAll first cs ↔
    ∃ i c, cs[i]? = some c ∧ ∃ q ∈ c.placements, p = ((first + i) :: q.1, q.2) := by
  induction cs generalizing first with
  | nil => simp [placementsAll]
  | cons c rest ih =>
    rw [placementsAll, List.mem_append, List.mem_map, ih]
    constructor
    · rintro (⟨q, hq, rfl⟩ | ⟨i, d, hd, q, hq, rfl⟩)
      · exact ⟨0, c, rfl, q, hq, rfl⟩
      · exact ⟨i + 1, d, hd, q, hq, by rw [Nat.add_right_comm, Nat.add_assoc]⟩
    · rintro ⟨_ | i, d, hd, q, hq, rfl⟩
      · obtain rfl : c = d := by simpa using hd
        exact .inl ⟨q, hq, rfl⟩
      · exact .inr ⟨i, d, hd, q, hq, by rw [Nat.add_right_comm, Nat.add_assoc]⟩

/-- Every node of the tree is listed under its address, and nothing else is. -/
theorem mem_placements : p ∈ c.placements ↔ c.at? p.1 = some p.2 := by
  induction c using induction_children generalizing p with
  | h c ih =>
    obtain ⟨address, d⟩ := p
    rw [placements_eq, List.mem_cons, mem_placementsAll]
    cases address with
    | nil => simp [at?, eq_comm]
    | cons i address =>
      simp only [at?, Option.bind_eq_some_iff, Prod.mk.injEq, List.cons.injEq, reduceCtorEq,
        false_and, false_or, Nat.zero_add]
      constructor
      · rintro ⟨i, e, he, q, hq, ⟨rfl, rfl⟩, rfl⟩
        exact ⟨e, he, (ih e (List.mem_of_getElem? he)).mp hq⟩
      · rintro ⟨e, he, hd⟩
        exact ⟨i, e, he, (address, d), (ih e (List.mem_of_getElem? he)).mpr hd, ⟨rfl, rfl⟩, rfl⟩

theorem pairwise_placementsAll (h : ∀ c ∈ cs, c.placements.Pairwise (·.1 < ·.1)) (first : Nat) :
    (placementsAll first cs).Pairwise (·.1 < ·.1) := by
  induction cs generalizing first with
  | nil => simp [placementsAll]
  | cons c rest ih =>
    rw [placementsAll, List.pairwise_append, List.pairwise_map]
    refine ⟨?_, ih (fun d hd => h d (by simp [hd])) (first + 1), ?_⟩
    · exact (h c (by simp)).imp List.cons_lt_cons_self.mpr
    · intro p hp q hq
      obtain ⟨p, -, rfl⟩ := List.mem_map.mp hp
      obtain ⟨i, d, -, q, -, rfl⟩ := mem_placementsAll.mp hq
      exact List.cons_lt_cons_iff.mpr (.inl (by omega))

/-- The addresses ascend: a node comes before its descendants, and these before its next sibling. -/
theorem pairwise_placements (c : Concrete) : c.placements.Pairwise (·.1 < ·.1) := by
  induction c using induction_children with
  | h c ih =>
    rw [placements_eq, List.pairwise_cons]
    refine ⟨?_, pairwise_placementsAll ih 0⟩
    intro p hp
    obtain ⟨i, d, -, q, -, rfl⟩ := mem_placementsAll.mp hp
    exact List.nil_lt_cons _ _

end Placements

/-- What waits is what is still to come in preorder, up to the first fault. -/
theorem firstFaultAmong_eq_find? (waiting : List Concrete) :
    firstFaultAmong waiting = (preorderAll waiting).find? isFault := by
  fun_induction firstFaultAmong waiting with
  | case1 => simp [preorderAll]
  | case2 c rest hc => simp [preorderAll, preorder_eq, hc]
  | case3 c rest hc ih => simp [ih, preorderAll, preorder_eq, preorderAll_append, hc]

theorem firstFault?_eq_find? (c : Concrete) : c.firstFault? = c.preorder.find? isFault := by
  rw [firstFault?, firstFaultAmong_eq_find?, preorderAll, preorderAll, List.append_nil]

/-- A node without children that is no comment, was not assumed and covers some text. -/
def isLeaf (c : Concrete) : Bool := c.children.isEmpty && c.isToken

/-- What waits is what is still to come in preorder; only nodes without children are kept of it. -/
theorem leavesAmong_eq_filter (waiting : List Concrete) :
    leavesAmong waiting = (preorderAll waiting).filter isLeaf := by
  fun_induction leavesAmong waiting with
  | case1 => simp [preorderAll]
  | case2 c rest htoken hempty ih =>
    have hnil : c.children = [] := List.isEmpty_iff.mp hempty
    simp [preorderAll, preorder_eq, isLeaf, hnil, htoken, ih]
  | case3 c rest htoken hempty ih =>
    have hnil : c.children = [] := List.isEmpty_iff.mp hempty
    simp [preorderAll, preorder_eq, isLeaf, hnil, htoken, ih]
  | case4 c rest hempty ih =>
    simp [ih, preorderAll, preorder_eq, preorderAll_append, isLeaf, hempty]

theorem leaves_eq_filter (c : Concrete) : c.leaves = c.preorder.filter isLeaf := by
  rw [leaves, leavesAmong_eq_filter, preorderAll, preorderAll, List.append_nil]

theorem isLeaf_iff {c : Concrete} : c.isLeaf = true ↔
    c.children = [] ∧ c.isComment = false ∧ c.missing = false ∧ c.start ≠ c.stop := by
  simp [isLeaf, isToken, and_assoc]

/-- The leaves stand at the ascending addresses at which there is one. -/
theorem exists_addresses_leaves (tree : Concrete) :
    ∃ addresses : List (List Nat), addresses.Pairwise (· < ·) ∧
      (∀ address, address ∈ addresses ↔ ∃ c, tree.at? address = some c ∧ c.isLeaf = true) ∧
      tree.leaves.map some = addresses.map tree.at? := by
  let kept := tree.placements.filter (·.2.isLeaf)
  have hkept {p : List Nat × Concrete} :
      p ∈ kept ↔ tree.at? p.1 = some p.2 ∧ p.2.isLeaf = true := by
    rw [List.mem_filter, mem_placements]
  refine ⟨kept.map (·.1), ?_, ?_, ?_⟩
  · exact List.pairwise_map.mpr (tree.pairwise_placements.filter _)
  · intro address
    simp [hkept]
  · have hleaves : tree.leaves = kept.map (·.2) := by
      rw [leaves_eq_filter, ← map_snd_placements, List.filter_map]
      rfl
    rw [hleaves, List.map_map, List.map_map]
    exact List.map_congr_left fun p hp => (hkept.mp hp).1.symm

theorem isFault_iff {c : Concrete} : c.isFault = true ↔ c.kind = "ERROR" ∨ c.missing = true := by
  simp [isFault]

/-- The first fault in preorder has none before it. -/
theorem firstFault?_eq_some_iff {tree c : Concrete} : tree.firstFault? = some c ↔
    ∃ before after, tree.preorder = before ++ c :: after ∧ c.isFault = true ∧
      ∀ d ∈ before, ¬ d.isFault = true := by
  rw [firstFault?_eq_find?, List.find?_eq_some_iff_append]
  constructor
  · rintro ⟨hc, before, after, hsplit, hbefore⟩
    exact ⟨before, after, hsplit, hc, fun d hd => by simpa using hbefore d hd⟩
  · rintro ⟨before, after, hsplit, hc, hbefore⟩
    exact ⟨hc, before, after, hsplit, fun d hd => by simpa using hbefore d hd⟩

end Concrete

/-- A program is refused for the first fault of its tree. -/
theorem parse_eq_fault_iff {source : String} {tree : Concrete} {location : Location} :
    (∃ snippet, parse sourceLanguage source tree = .error (.fault location snippet)) ↔
      ∃ c, tree.firstFault? = some c ∧
        location = c.location (Text.Utf8.encode source.toList) := by
  cases hfault : tree.firstFault? with
  | none => simp [parse, Concrete.failure?, hfault]
  | some c => simp [parse, Concrete.failure?, hfault, eq_comm]

end EcmaPhp
