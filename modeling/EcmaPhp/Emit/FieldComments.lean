import EcmaPhp.Scope.Bindings

/-! The fields that a constructor sets, and their comments, which move to the declarations of the
fields. -/
namespace EcmaPhp.Node

def isThisKey (key : String) : Bool := "this.".toList.isPrefixOf key.toList

/-- The field that a statement sets, as `this.x`. -/
def assignedField? (statement : Node) : Option String :=
  match statement.expression? with
  | none => none
  | some expression =>
    if expression.kind = .assignmentExpression then
      ((expression.child? .left).bind bindingKey?).filter isThisKey
    else none

/-- Takes the block comments from the front of a statement; their lines are left out. -/
def takeBlockComments (statement : Node) : Node × List Comment :=
  let taken := statement.leading.filter Comment.isBlock
  match taken, taken.getLast? with
  | first :: _, some last =>
    let skipped :=
      (first.location.first.line, min last.location.last.line (statement.location.first.line - 1))
    ({ statement with
        leading := statement.leading.filter (!·.isBlock)
        skipped := some skipped }, taken)
  | _, _ => (statement, [])

/-- Takes the comments from the first statement for each field that is not known yet. -/
def takeFieldComments (known : List String) : List Node → List Node × List (String × List Comment)
  | [] => ([], [])
  | s :: rest =>
    match s.assignedField? with
    | none =>
      let (rest', held) := takeFieldComments known rest
      (s :: rest', held)
    | some key =>
      if known.contains key then
        let (rest', held) := takeFieldComments known rest
        (s :: rest', held)
      else
        let (s', taken) := s.takeBlockComments
        let (rest', held) := takeFieldComments (key :: known) rest
        (s' :: rest', (key, taken) :: held)

@[simp] theorem weight_takeBlockComments (s : Node) : s.takeBlockComments.1.weight = s.weight := by
  unfold takeBlockComments
  dsimp only
  split <;> simp [weight_eq]

theorem weightAll_takeFieldComments (known : List String) (ns : List Node) :
    weightAll (takeFieldComments known ns).1 = weightAll ns := by
  induction ns generalizing known with
  | nil => rfl
  | cons s rest ih =>
    unfold takeFieldComments
    split
    · simp [weightAll, ih]
    · split <;> simp [weightAll, ih]

end EcmaPhp.Node

namespace EcmaPhp.Part

variable {n : Node}

/-- The body of a constructor without the comments of the fields that it sets, and the comments. -/
def withoutFieldComments (body : Part n) (known : List String) :
    Part n × List (String × List Comment) :=
  let taken := Node.takeFieldComments known body.node.children
  (⟨{ body.node with children := taken.1 }, by
      have := body.smaller
      rw [Node.weight_eq body.node] at this
      rw [Node.weight_eq]
      simpa [taken, Node.weightAll_takeFieldComments] using this⟩,
    taken.2)

end EcmaPhp.Part
