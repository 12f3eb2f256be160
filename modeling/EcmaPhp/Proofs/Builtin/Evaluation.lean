import EcmaPhp.Proofs.Builtin.Operands
import Mathlib.Algebra.GroupWithZero.Nat

/-! Replacements as nodes. Nothing stands for such a node in turn, and but for a few nodes it
consists of parts of the node that it stands for. -/
namespace EcmaPhp

variable {n : Node}

/-- A node as a child in a field of a new node. -/
def Node.inField (m : Node) (f : Option Field) : Node := { m with field := f }

namespace Operand

/-- An operand as a node. -/
def toNode : Operand n → Node
  | .source part _ => part.node.inField none
  | .literal kind text => { kind, text }
  | .emptyArray => { kind := .array }
  | .method object name =>
    { kind := .array
      children := [object.node.inField none, { kind := .string, text := "'" ++ name ++ "'" }] }
  | .element container index =>
    { kind := .subscriptExpression
      children := [container.node.inField (some .object), index.node.inField (some .index)] }

/-- The number of nodes of an operand that are new. -/
def fresh : Operand n → ℕ
  | .source .. => 0
  | .literal .. | .emptyArray | .element .. => 1
  | .method .. => 2

end Operand

namespace Replacement

/-- A replacement as a node. -/
def toNode : Replacement n → Node
  | .call function operands =>
    { kind := .callExpression
      children := [
        { kind := .identifier, text := function, field := some .function },
        { kind := .arguments, field := some .arguments, children := operands.map Operand.toNode }] }
  | .constant name => { kind := .identifier, text := name }

/-- The number of nodes of a replacement that are new. -/
def fresh : Replacement n → ℕ
  | .call _ operands => 3 + (operands.map Operand.fresh).sum
  | .constant _ => 1

end Replacement

section Weight

@[simp] theorem Node.weight_inField (m : Node) (f : Option Field) :
    (m.inField f).weight = m.weight := by
  rw [weight_eq, weight_eq m]
  rfl

theorem Operand.weight_toNode (o : Operand n) :
    o.toNode.weight = o.fresh + (o.sources.map Node.weight).sum := by
  cases o with
  | source part alone => simp [toNode, fresh, sources]
  | literal kind text => simp [toNode, fresh, sources, Node.weight, Node.weightAll]
  | emptyArray => simp [toNode, fresh, sources, Node.weight, Node.weightAll]
  | method object name =>
    simp only [toNode, fresh, sources, Node.weight, Node.weightAll, Node.weight_inField,
      List.map_cons, List.map_nil, List.sum_cons, List.sum_nil]
    omega
  | element container index =>
    simp only [toNode, fresh, sources, Node.weight, Node.weightAll, Node.weight_inField,
      List.map_cons, List.map_nil, List.sum_cons, List.sum_nil]
    omega

theorem weightAll_map_toNode (operands : List (Operand n)) :
    Node.weightAll (operands.map Operand.toNode) =
      (operands.map Operand.fresh).sum +
        ((operands.flatMap Operand.sources).map Node.weight).sum := by
  induction operands with
  | nil => rfl
  | cons o rest ih =>
    simp only [List.map_cons, Node.weightAll, o.weight_toNode, ih, List.sum_cons, List.flatMap_cons,
      List.map_append, List.sum_append]
    omega

/-- A replacement consists of its new nodes and of parts of the source. -/
theorem Replacement.weight_toNode (r : Replacement n) :
    r.toNode.weight = r.fresh + (r.sources.map Node.weight).sum := by
  cases r with
  | call function operands =>
    have hoperands := weightAll_map_toNode operands
    simp only [toNode, fresh, sources, Node.weight, Node.weightAll, hoperands]
    omega
  | constant name => rfl

end Weight

namespace Builtin

/-- The functions that stand for built-in ones. -/
def functions : List String :=
  receiverFirst.map (·.2) ++ stringReceiverFirst.map (·.2) ++ receiverLast.map (·.2) ++
    staticCalls.map (·.2) ++ globalCalls.map (·.2) ++
    [invoke, invokeWithList, "preg_replace", "strlen", "count"]

/-- The constants that stand for built-in ones. -/
def constants : List String := staticMembers.map (·.2) ++ globalConstants.map (·.2)

end Builtin

/-- A replacement as the tables give it. -/
def Replacement.Known : Replacement n → Prop
  | .call function operands =>
    function ∈ Builtin.functions ∧ (operands.map Operand.fresh).sum ≤ 3
  | .constant name => name ∈ Builtin.constants

namespace Builtin

theorem mem_map_of_lookup {α : Type} [BEq α] {table : List (α × String)} {key : α} {name : String}
    (h : table.lookup key = some name) : name ∈ table.map (·.2) := by
  induction table with
  | nil => cases h
  | cons entry rest ih =>
    rw [List.lookup_cons] at h
    split at h
    · cases h
      exact List.mem_cons_self
    · exact List.mem_cons_of_mem _ (ih h)

theorem fresh_operands (args : List (Part n)) : ((operands args).map Operand.fresh).sum = 0 := by
  simp [operands, Function.comp_def, Operand.fresh]

theorem fresh_callable (target : Part n) : (callable target).fresh ≤ 2 := by
  unfold callable
  split
  · split <;> simp [Operand.fresh]
  · simp [Operand.fresh]

theorem known_indirect? {target : Part n} {method : String} {args : List (Part n)}
    {r : Replacement n} {e : Event} (h : indirect? target method args = some (r, e)) :
    r.Known := by
  have hcallable := fresh_callable target
  have hinvoked {function : String} {rest : List (Operand n)}
      (heq : some (indirect?.invoked target function rest) = some (r, e))
      (hfunction : function ∈ functions) (hrest : (rest.map Operand.fresh).sum ≤ 1) : r.Known := by
    cases heq
    refine ⟨hfunction, ?_⟩
    rw [List.map_cons, List.sum_cons]
    omega
  unfold indirect? at h
  dsimp only at h
  split at h
  · cases h
  split at h
  · split at h
    · exact hinvoked h (by decide) (by simp [Operand.fresh])
    · exact hinvoked h (by decide) (by simp [Operand.fresh])
    · cases h
  · refine hinvoked h (by decide) ?_
    simp [Function.comp_def, Operand.fresh]

theorem known_receiverLast? {method function : String} {args : List (Part n)}
    {before after : List (Operand n)}
    (h : receiverLast? method args = some (function, before, after)) :
    function ∈ functions ∧
      (before.map Operand.fresh).sum + (after.map Operand.fresh).sum ≤ 1 := by
  unfold receiverLast? at h
  split at h
  · cases h
  rename_i name hname
  have hmem : name ∈ functions := by
    have := mem_map_of_lookup hname
    simp only [functions, List.mem_append]
    tauto
  split at h
  · cases h
  split at h
  · cases h
    exact ⟨hmem, by simp [Operand.fresh]⟩
  split at h
  · split at h
    · cases h
      refine ⟨?_, by simp [fresh_operands]⟩
      split
      · decide
      · exact hmem
    · cases h
  split at h
  · cases h
  · cases h
    refine ⟨hmem, ?_⟩
    rw [fresh_operands]
    split <;> simp [Operand.fresh]

theorem known_method? {scopes : Scopes} {receiver : Part n} {method : String}
    {args : List (Part n)} {r : Replacement n} {e : Event}
    (h : method? scopes receiver method args = some (r, e)) : r.Known := by
  unfold method? at h
  dsimp only at h
  split at h
  · rename_i function hstatic
    cases h
    split at hstatic
    · have := mem_map_of_lookup hstatic
      refine ⟨?_, by rw [fresh_operands]; omega⟩
      simp only [functions, List.mem_append]
      tauto
    · cases hstatic
  split at h
  · exact known_indirect? h
  split at h
  · cases h
  split at h
  · rename_i function hfirst
    cases h
    refine ⟨?_, by simp [fresh_operands, Operand.fresh]⟩
    simp only [functions, List.mem_append]
    rcases Option.or_eq_some_iff.mp hfirst with hstring | ⟨-, hfirst⟩
    · split at hstring
      · have := mem_map_of_lookup hstring
        tauto
      · cases hstring
    · have := mem_map_of_lookup hfirst
      tauto
  · obtain ⟨⟨function, before, after⟩, hlast, heq⟩ := Option.map_eq_some_iff.mp h
    obtain ⟨hfunction, hfresh⟩ := known_receiverLast? hlast
    cases heq
    refine ⟨hfunction, ?_⟩
    simp only [List.map_append, List.sum_append, List.map_cons, List.sum_cons, Operand.fresh]
    omega

theorem known_call? {scopes : Scopes} {r : Replacement n} {e : Event}
    (h : call? scopes n = some (r, e)) : r.Known := by
  unfold call? at h
  split at h
  · split at h
    · split at h
      · obtain ⟨function, hfunction, heq⟩ := Option.map_eq_some_iff.mp h
        cases heq
        have := mem_map_of_lookup hfunction
        refine ⟨?_, by rw [fresh_operands]; omega⟩
        simp only [functions, List.mem_append]
        tauto
      · cases h
    · split at h
      · split at h
        · cases h
        · exact known_method? h
      · cases h
    · cases h
  · cases h

theorem known_member? {scopes : Scopes} {r : Replacement n} {e : Event}
    (h : member? scopes n = some (r, e)) : r.Known := by
  unfold member? at h
  split at h
  · dsimp only at h
    split at h
    · rename_i name hstatic
      cases h
      split at hstatic
      · exact List.mem_append_left _ (mem_map_of_lookup hstatic)
      · cases hstatic
    · split at h
      · cases h
        refine ⟨?_, by simp [Operand.fresh]⟩
        split <;> decide
      · cases h
  · cases h

theorem known_replacement? {scopes : Scopes} {place : Place} {r : Replacement n}
    {e : Option Event} (h : replacement? scopes place n = some (r, e)) : r.Known := by
  unfold replacement? at h
  split at h
  · obtain ⟨⟨r', e'⟩, hcall, heq⟩ := Option.map_eq_some_iff.mp h
    cases heq
    exact known_call? hcall
  · split at h
    · cases h
    · obtain ⟨⟨r', e'⟩, hmember, heq⟩ := Option.map_eq_some_iff.mp h
      cases heq
      exact known_member? hmember
  · obtain ⟨name, hname, heq⟩ := Option.map_eq_some_iff.mp h
    cases heq
    unfold constant? at hname
    split at hname
    · exact List.mem_append_right _ (mem_map_of_lookup hname)
    · cases hname
  · cases h

/-- Nothing stands for a call of a function that is not built in. -/
theorem call?_toNode_eq_none {function : String} (hfunction : globalCalls.lookup function = none)
    (scopes : Scopes) (operands : List (Operand n)) :
    call? scopes (Replacement.call function operands).toNode = none := by
  unfold call?
  split
  · rename_i callee args hcallee hargs
    have hnode : callee.node = { kind := .identifier, text := function, field := some .function } :=
      (Option.some.inj (Node.child?_of_part? hcallee)).symm
    rw [hnode]
    simp [hfunction]
  · rfl

/-- Nothing stands for what stands for a node, wherever it is. -/
theorem replacement?_toNode_eq_none {r : Replacement n} (hr : r.Known) (scopes : Scopes)
    (place : Place) : replacement? scopes place r.toNode = none := by
  cases r with
  | call function operands =>
    have hlookup : ∀ name ∈ functions, globalCalls.lookup name = none := by decide +kernel
    have hcall := call?_toNode_eq_none (hlookup function hr.1) scopes operands
    simp only [replacement?, Replacement.toNode] at hcall ⊢
    rw [hcall]
    rfl
  | constant name =>
    have hlookup : ∀ name ∈ constants, globalConstants.lookup name = none := by decide +kernel
    simp [replacement?, Replacement.toNode, constant?, hlookup name hr]

/-- The node that stands for a node: that of its replacement, or the node itself. -/
def evaluate (scopes : Scopes) (place : Place) (n : Node) : Node :=
  match replacement? scopes place n with
  | some (r, _) => r.toNode
  | none => n

theorem evaluate_toNode {r : Replacement n} (hr : r.Known) (scopes : Scopes) (place : Place) :
    evaluate scopes place r.toNode = r.toNode := by
  rw [evaluate, replacement?_toNode_eq_none hr]

theorem evaluate_evaluate (scopes : Scopes) (place : Place) (n : Node) :
    evaluate scopes place (evaluate scopes place n) = evaluate scopes place n := by
  cases h : replacement? scopes place n with
  | none =>
    have hself : evaluate scopes place n = n := by rw [evaluate, h]
    rw [hself, hself]
  | some x =>
    have hnode : evaluate scopes place n = x.1.toNode := by rw [evaluate, h]
    rw [hnode, evaluate_toNode (known_replacement? h)]

end Builtin
end EcmaPhp
