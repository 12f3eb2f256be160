import EcmaPhp.Builtin.Classify

/-! What an expression can do when it is evaluated, and that a pure one does none of it. -/
namespace EcmaPhp

/-- A literal without holes, or a name. -/
def Kind.isAtom : Kind → Bool
  | .identifier | .number | .string | .trueValue | .falseValue | .nullValue | .undefinedValue
  | .thisValue | .regex => true
  | _ => false

namespace Node

/-- An expression that changes something or hands over control when it is evaluated. -/
def isEffect (n : Node) : Bool :=
  match n.kind with
  | .callExpression | .newExpression | .assignmentExpression | .augmentedAssignment
  | .updateExpression | .awaitExpression | .yieldExpression | .templateSubstitution => true
  | .unaryExpression => n.operator = "delete"
  | _ => false

mutual
/-- The nodes that evaluating a node reaches. The inside of a function waits for its call. -/
def reached : Node → List Node
  | ⟨kind, location, start, stop, text, field, tokens, attrs, leading, trailing, inner, skipped,
      children⟩ =>
    ⟨kind, location, start, stop, text, field, tokens, attrs, leading, trailing, inner, skipped,
      children⟩ :: if kind.isFunctionExpression then [] else reachedAll children
def reachedAll : List Node → List Node
  | [] => []
  | n :: rest => reached n ++ reachedAll rest
end

def hasEffect (n : Node) : Bool := n.reached.any isEffect

/-- A name, or a piece of a literal. -/
def isPiece (n : Node) : Bool :=
  n.children.isEmpty &&
    match n.kind with
    | .identifier | .propertyIdentifier | .privatePropertyIdentifier | .other _ => true
    | _ => false

/-- The children other than the first one in a field. -/
def childrenBut (n : Node) (f : Field) : List Node := n.children.eraseP (·.field = some f)

/-- The children that the grammar gives to a node, as far as purity depends on them: literals and
names have only pieces, a template string may have substitutions too, a member has its object and a
name, and a unary expression has its argument. -/
def isShaped (n : Node) : Bool :=
  match n.kind with
  | .templateString => n.children.all fun c => c.isPiece || c.kind = .templateSubstitution
  | .memberExpression => (n.childrenBut .object).all isPiece
  | .unaryExpression => (n.childrenBut .argument).all isPiece
  | kind => !kind.isAtom || n.children.all isPiece

/-- A tree of the grammar's shape. -/
def Grammatical (n : Node) : Prop := ∀ m ∈ n.preorder, m.isShaped = true

instance (n : Node) : Decidable n.Grammatical :=
  inferInstanceAs (Decidable (∀ m ∈ n.preorder, m.isShaped = true))

theorem preorder_eq (n : Node) : n.preorder = n :: preorderAll n.children := by
  cases n
  rw [preorder]

theorem mem_preorderAll {m : Node} {ns : List Node} :
    m ∈ preorderAll ns ↔ ∃ n ∈ ns, m ∈ n.preorder := by
  induction ns with
  | nil => simp [preorderAll]
  | cons n rest ih => simp [preorderAll, ih]

theorem Grammatical.isShaped {n : Node} (h : n.Grammatical) : n.isShaped = true :=
  h n (by rw [preorder_eq]; exact List.mem_cons_self)

theorem Grammatical.child {n c : Node} (h : n.Grammatical) (hc : c ∈ n.children) :
    c.Grammatical := by
  intro m hm
  apply h
  rw [preorder_eq]
  exact List.mem_cons_of_mem n (mem_preorderAll.mpr ⟨c, hc, hm⟩)

theorem reached_eq (n : Node) :
    n.reached = n :: if n.kind.isFunctionExpression then [] else reachedAll n.children := by
  cases n
  rw [reached]

theorem mem_reachedAll {m : Node} {ns : List Node} :
    m ∈ reachedAll ns ↔ ∃ n ∈ ns, m ∈ n.reached := by
  induction ns with
  | nil => simp [reachedAll]
  | cons n rest ih => simp [reachedAll, ih]

/-- Evaluating a function only makes it. -/
theorem hasEffect_of_isFunctionExpression {n : Node} (h : n.kind.isFunctionExpression = true) :
    n.hasEffect = n.isEffect := by
  simp [hasEffect, reached_eq, h]

theorem hasEffect_eq_false {n : Node} (hself : n.isEffect = false)
    (hchildren : ∀ c ∈ n.children, c.hasEffect = false) : n.hasEffect = false := by
  unfold hasEffect
  rw [reached_eq, List.any_cons, hself, Bool.false_or]
  split
  · rfl
  · rw [List.any_eq_false]
    intro m hm
    obtain ⟨c, hc, hmem⟩ := mem_reachedAll.mp hm
    exact List.any_eq_false.mp (hchildren c hc) m hmem

theorem hasEffect_of_isPiece {n : Node} (h : n.isPiece = true) : n.hasEffect = false := by
  obtain ⟨hnone, hkind⟩ := Bool.and_eq_true_iff.mp h
  apply hasEffect_eq_false
  · unfold isEffect
    split at hkind <;> simp_all
  · simp [List.isEmpty_iff.mp hnone]

theorem isEffect_eq_false {n : Node}
    (h : n.kind.isAtom = true ∨ n.kind.isFunctionExpression = true) : n.isEffect = false := by
  unfold isEffect
  split <;> simp_all [Kind.isAtom, Kind.isFunctionExpression]

theorem isPiece_of_isAtom {n c : Node} (hshape : n.isShaped = true) (hatom : n.kind.isAtom = true)
    (hc : c ∈ n.children) : c.isPiece = true := by
  unfold isShaped at hshape
  split at hshape
  case h_4 =>
    rw [hatom, Bool.not_true, Bool.false_or] at hshape
    exact List.all_eq_true.mp hshape c hc
  all_goals
    rename_i hkind
    simp [hkind, Kind.isAtom] at hatom

theorem child?_eq_some_or_mem_childrenBut {n c : Node} (f : Field) (h : c ∈ n.children) :
    n.child? f = some c ∨ c ∈ n.childrenBut f := by
  unfold child? childrenBut
  generalize n.children = children at h
  induction children with
  | nil => cases h
  | cons d rest ih =>
    by_cases hd : d.field = some f
    · rw [List.find?_cons_of_pos (by simpa using hd), List.eraseP_cons_of_pos (by simpa using hd)]
      cases h with
      | head => exact .inl rfl
      | tail _ h => exact .inr h
    · rw [List.find?_cons_of_neg (by simpa using hd), List.eraseP_cons_of_neg (by simpa using hd)]
      cases h with
      | head => exact .inr List.mem_cons_self
      | tail _ h => exact (ih h).imp_right (List.mem_cons_of_mem d)

theorem map_node_part? (n : Node) (f : Field) : (n.part? f).map (·.node) = n.child? f := by
  unfold part? child?
  rw [← map_node_parts n, List.find?_map]
  rfl

theorem child?_of_part? {n : Node} {f : Field} {p : Part n} (h : n.part? f = some p) :
    n.child? f = some p.node := by
  rw [← map_node_part?, h, Option.map_some]

/-- A node whose other children are pieces has the effects of the child in the field. -/
theorem hasEffect_eq_false_of_child? {n c : Node} {f : Field} (hself : n.isEffect = false)
    (hc : n.child? f = some c) (heffect : c.hasEffect = false)
    (hothers : (n.childrenBut f).all isPiece = true) : n.hasEffect = false := by
  apply hasEffect_eq_false hself
  intro d hd
  rcases child?_eq_some_or_mem_childrenBut f hd with hfield | hother
  · obtain rfl : c = d := Option.some.inj (hc.symm.trans hfield)
    exact heffect
  · exact hasEffect_of_isPiece (List.all_eq_true.mp hothers d hother)

/-- The forms of a pure expression. -/
theorem isPure_cases {n : Node} (h : n.isPure = true) :
    n.kind.isAtom = true ∨ n.kind.isFunctionExpression = true ∨
      (n.kind = .templateString ∧ n.childrenOf .templateSubstitution = []) ∨
      (n.kind = .memberExpression ∧
        ∃ object, n.part? .object = some object ∧ object.node.isPure = true) ∨
      (n.kind = .unaryExpression ∧ n.operator ≠ "delete" ∧
        ∃ argument, n.part? .argument = some argument ∧ argument.node.isPure = true) := by
  rw [isPure] at h
  cases hkind : n.kind
  all_goals simp only [hkind, Bool.false_eq_true] at h
  case templateString => exact .inr (.inr (.inl ⟨rfl, List.isEmpty_iff.mp h⟩))
  case memberExpression =>
    split at h
    · rename_i object hobject
      exact .inr (.inr (.inr (.inl ⟨rfl, object, hobject, h⟩)))
    · cases h
  case unaryExpression =>
    split at h
    · rename_i argument hargument
      obtain ⟨hoperator, hpure⟩ := Bool.and_eq_true_iff.mp h
      have hne : n.operator ≠ "delete" := by
        intro heq
        rw [heq] at hoperator
        exact absurd hoperator (by decide)
      exact .inr (.inr (.inr (.inr ⟨rfl, hne, argument, hargument, hpure⟩)))
    · cases h
  all_goals simp [Kind.isAtom, Kind.isFunctionExpression]

/-- The first child in a field is a child. -/
theorem mem_children_of_child? {n c : Node} {f : Field} (h : n.child? f = some c) :
    c ∈ n.children :=
  List.mem_of_find?_eq_some h

/-- A pure expression of the grammar's shape has no effect. -/
theorem hasEffect_of_isPure {n : Node} (hshape : n.Grammatical) (hpure : n.isPure = true) :
    n.hasEffect = false := by
  induction hweight : n.weight using Nat.strongRecOn generalizing n with
  | _ w ih =>
    subst hweight
    have hself := hshape.isShaped
    -- what stands in the object or the argument is pure again, so it has no effect either
    have hfield {f : Field} {p : Part n} (hp : n.part? f = some p) (hpart : p.node.isPure = true) :
        n.child? f = some p.node ∧ p.node.hasEffect = false := by
      have hchild := child?_of_part? hp
      exact ⟨hchild, ih _ p.smaller (hshape.child (mem_children_of_child? hchild)) hpart rfl⟩
    rcases isPure_cases hpure with hatom | hfunction | ⟨hkind, hnone⟩ | ⟨hkind, object, hp, hpart⟩ |
      ⟨hkind, hoperator, argument, hp, hpart⟩
    · apply hasEffect_eq_false (isEffect_eq_false (.inl hatom))
      intro c hc
      exact hasEffect_of_isPiece (isPiece_of_isAtom hself hatom hc)
    · rw [hasEffect_of_isFunctionExpression hfunction]
      exact isEffect_eq_false (.inr hfunction)
    · apply hasEffect_eq_false (by simp [isEffect, hkind])
      intro c hc
      rw [Node.isShaped, hkind] at hself
      apply hasEffect_of_isPiece
      simpa [List.filter_eq_nil_iff.mp hnone c hc] using List.all_eq_true.mp hself c hc
    · obtain ⟨hchild, heffect⟩ := hfield hp hpart
      rw [Node.isShaped, hkind] at hself
      exact hasEffect_eq_false_of_child? (by simp [isEffect, hkind]) hchild heffect hself
    · obtain ⟨hchild, heffect⟩ := hfield hp hpart
      rw [Node.isShaped, hkind] at hself
      exact hasEffect_eq_false_of_child? (by simp [isEffect, hkind, hoperator]) hchild heffect hself

end Node
end EcmaPhp
