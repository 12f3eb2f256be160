import EcmaPhp.Proofs.Rewriting
import EcmaPhp.Proofs.Visits

/-! Members that are written to. What an assignment or an update writes to itself is left as it is; a
member that is written to in any other way is replaced as if it were read. -/
namespace EcmaPhp

namespace Node

/-- A write in a tree: `writer` holds the target, as the node that writes or as part of a pattern. -/
inductive WritesTo (root : Node) : (writer target : Node) → Prop where
  | assignment {w t : Node} (hw : w ∈ root.preorder)
      (hkind : w.kind = .assignmentExpression ∨ w.kind = .augmentedAssignment)
      (ht : w.child? .left = some t) : WritesTo root w t
  | update {w t : Node} (hw : w ∈ root.preorder) (hkind : w.kind = .updateExpression)
      (ht : w.child? .argument = some t) : WritesTo root w t
  /-- The variable of a loop over keys or values. -/
  | loop {w t : Node} (hw : w ∈ root.preorder) (hkind : w.kind = .forInStatement)
      (ht : w.child? .left = some t) : WritesTo root w t
  | deletion {w t : Node} (hw : w ∈ root.preorder) (hkind : w.kind = .unaryExpression)
      (hoperator : w.operator = "delete") (ht : w.child? .argument = some t) : WritesTo root w t
  | element {w p t : Node} (h : WritesTo root w p)
      (hkind : p.kind = .objectPattern ∨ p.kind = .arrayPattern) (ht : t ∈ p.children) :
      WritesTo root p t
  | pairValue {w p t : Node} (h : WritesTo root w p) (hkind : p.kind = .pairPattern)
      (ht : p.child? .value = some t) : WritesTo root p t
  | withDefault {w p t : Node} (h : WritesTo root w p)
      (hkind : p.kind = .assignmentPattern ∨ p.kind = .objectAssignmentPattern)
      (ht : p.child? .left = some t) : WritesTo root p t
  | rest {w p t : Node} (h : WritesTo root w p) (hkind : p.kind = .restPattern)
      (ht : t ∈ p.children) : WritesTo root p t

/-- A node that writes to its target itself and leaves it as it is. -/
def isAssigner (n : Node) : Bool :=
  n.kind = .assignmentExpression || n.kind = .augmentedAssignment || n.kind = .updateExpression

/-- Whether a member is one for which something built-in stands: a constant of an object that no
scope binds, or a length. -/
def readsBuiltin (scopes : Scopes) (n : Node) : Bool :=
  match n.child? .object, n.child? .property with
  | some object, some property =>
    scopes.isUnbound object && (Builtin.staticMembers.lookup (object.text, property.text)).isSome ||
      property.text = "length" && !n.isOptionalChain
  | _, _ => false

variable {root writer target n m : Node}

theorem WritesTo.mem (h : root.WritesTo writer target) :
    writer ∈ root.preorder ∧ target ∈ writer.children := by
  have hinside {w p : Node} (h : w ∈ root.preorder ∧ p ∈ w.children) : p ∈ root.preorder := by
    apply mem_preorder_trans (mem_preorder_of_mem_descendants ?_) h.1
    exact mem_preorderAll.mpr ⟨p, h.2, p.mem_preorder_self⟩
  induction h with
  | assignment hw _ ht => exact ⟨hw, mem_children_of_child? ht⟩
  | update hw _ ht => exact ⟨hw, mem_children_of_child? ht⟩
  | loop hw _ ht => exact ⟨hw, mem_children_of_child? ht⟩
  | deletion hw _ _ ht => exact ⟨hw, mem_children_of_child? ht⟩
  | element _ _ ht ih => exact ⟨hinside ih, ht⟩
  | pairValue _ _ ht ih => exact ⟨hinside ih, mem_children_of_child? ht⟩
  | withDefault _ _ ht ih => exact ⟨hinside ih, mem_children_of_child? ht⟩
  | rest _ _ ht ih => exact ⟨hinside ih, ht⟩

/-- The place of a target tells assignments and updates from all other writes. -/
theorem WritesTo.place_eq (h : root.WritesTo writer target) :
    Place.ofField writer.kind target.field =
      if writer.isAssigner then .target else .other := by
  cases h with
  | assignment _ hkind ht =>
    rcases hkind with hkind | hkind <;> simp [Place.ofField, isAssigner, hkind, field_of_child? ht]
  | update _ hkind => simp [Place.ofField, isAssigner, hkind]
  | loop _ hkind => simp [Place.ofField, isAssigner, hkind]
  | deletion _ hkind => simp [Place.ofField, isAssigner, hkind]
  | element _ hkind =>
    rcases hkind with hkind | hkind <;> simp [Place.ofField, isAssigner, hkind]
  | pairValue _ hkind => simp [Place.ofField, isAssigner, hkind]
  | withDefault _ hkind =>
    rcases hkind with hkind | hkind <;> simp [Place.ofField, isAssigner, hkind]
  | rest _ hkind => simp [Place.ofField, isAssigner, hkind]

section Places

theorem placed_eq (place : Place) (n : Node) :
    n.placed place = (place, n) :: placedAll n.kind n.children := by
  cases n
  rw [placed]

theorem mem_placedAll {parent : Kind} {x : Place × Node} {ns : List Node} :
    x ∈ placedAll parent ns ↔ ∃ n ∈ ns, x ∈ n.placed (.ofField parent n.field) := by
  induction ns with
  | nil => simp [placedAll]
  | cons n rest ih => simp [placedAll, ih]

/-- Every child in a tree is listed at the place that its parent gives it. -/
theorem mem_placed_of_mem_children (place : Place) (hw : writer ∈ n.preorder)
    (hm : m ∈ writer.children) : (.ofField writer.kind m.field, m) ∈ n.placed place := by
  induction hweight : n.weight using Nat.strongRecOn generalizing n place with
  | ind weight ih =>
    rw [preorder_eq, List.mem_cons] at hw
    rw [placed_eq]
    refine List.mem_cons_of_mem _ (mem_placedAll.mpr ?_)
    rcases hw with rfl | hw
    · refine ⟨m, hm, ?_⟩
      rw [placed_eq]
      exact List.mem_cons_self
    · obtain ⟨c, hc, hw⟩ := mem_preorderAll.mp hw
      exact ⟨c, hc, ih c.weight (hweight ▸ weight_lt_of_mem hc) _ hw rfl⟩

end Places
end Node

namespace Builtin

variable {scopes : Scopes} {n : Node}

theorem member?_eq_none_iff : member? scopes n = none ↔ n.readsBuiltin scopes = false := by
  have hpart : (n.part? .object).map (·.node) = n.child? .object := Node.map_node_part? n .object
  unfold member? Node.readsBuiltin
  rw [← hpart]
  cases n.part? .object with
  | none => simp
  | some receiver =>
    cases n.child? .property with
    | none => simp
    | some property =>
      simp only [Option.map_some]
      cases hunbound : scopes.isUnbound receiver.node <;>
        cases hlookup : staticMembers.lookup (receiver.node.text, property.text) <;>
          simp

/-- A member is left as it is where it is called or written, and where nothing stands for it. -/
theorem replacement?_member_eq_none_iff {place : Place} (hkind : n.kind = .memberExpression) :
    replacement? scopes place n = none ↔
      place = .callee ∨ place = .target ∨ n.readsBuiltin scopes = false := by
  rw [replacement?, hkind]
  by_cases hplace : place = .callee ∨ place = .target
  · rcases hplace with rfl | rfl <;> simp
  · obtain ⟨hcallee, htarget⟩ := not_or.mp hplace
    simp [hcallee, htarget, member?_eq_none_iff]

end Builtin

/-- A member that is written to is left as it is exactly if an assignment or an update writes to it
itself, or if nothing built-in stands for it. So a length or a constant that is written to through a
pattern, by a loop or by a deletion is replaced. -/
theorem written_members_kept_iff {root writer m : Node} (h : root.WritesTo writer m)
    (hkind : m.kind = .memberExpression) (scopes : Scopes) :
    (Place.ofField writer.kind m.field, m) ∈ root.placed .other ∧
      (Builtin.replacement? scopes (.ofField writer.kind m.field) m = none ↔
        writer.isAssigner = true ∨ m.readsBuiltin scopes = false) := by
  obtain ⟨hwriter, hm⟩ := h.mem
  refine ⟨Node.mem_placed_of_mem_children .other hwriter hm, ?_⟩
  rw [Builtin.replacement?_member_eq_none_iff hkind, h.place_eq]
  by_cases hassigner : writer.isAssigner = true
  · simp [hassigner]
  · simp [hassigner]

namespace Node

/-- The member `a.length` in a field. -/
def lengthOfA (field : Option Field) : Node :=
  { kind := .memberExpression
    field := field
    children := [
      { kind := .identifier, field := some .object, text := "a" },
      { kind := .propertyIdentifier, field := some .property, text := "length" }] }

/-- The pattern `[a.length]` on the left of an assignment. -/
def lengthPattern : Node :=
  { kind := .arrayPattern, field := some .left, children := [lengthOfA none] }

/-- The assignment of a variable to a target. -/
def assignmentTo (target : Node) : Node :=
  { kind := .assignmentExpression
    children := [target, { kind := .identifier, field := some .right, text := "b" }] }

theorem writesTo_left {target : Node} (h : target.field = some .left) :
    (assignmentTo target).WritesTo (assignmentTo target) target := by
  refine .assignment (mem_preorder_self _) (.inl rfl) ?_
  simp [assignmentTo, child?, h]

end Node

open Node in
/-- The length that `a.length = b` writes to stays, and the one in `[a.length] = b` becomes a call. -/
theorem written_members_kept_iff_length :
    let kept := lengthOfA (some .left)
    let lost := lengthOfA none
    (assignmentTo kept).WritesTo (assignmentTo kept) kept ∧
      (assignmentTo lengthPattern).WritesTo lengthPattern lost ∧
      Builtin.replacement? [] (.ofField (assignmentTo kept).kind kept.field) kept = none ∧
      ¬ Builtin.replacement? [] (.ofField lengthPattern.kind lost.field) lost = none := by
  intro kept lost
  have hkept : (assignmentTo kept).WritesTo (assignmentTo kept) kept := writesTo_left rfl
  have hlost : (assignmentTo lengthPattern).WritesTo lengthPattern lost :=
    .element (writesTo_left rfl) (.inr rfl) List.mem_cons_self
  refine ⟨hkept, hlost, ?_, ?_⟩
  · exact (written_members_kept_iff hkept rfl []).2.mpr (.inl rfl)
  · rw [(written_members_kept_iff hlost rfl []).2]
    decide +kernel

end EcmaPhp
