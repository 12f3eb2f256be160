import EcmaPhp.Proofs.Budget.Statement
import EcmaPhp.Proofs.Builtin.Evaluation

/-! What the rules put in place of a node, and how many nodes an emission visits, the new ones
included. -/
namespace EcmaPhp
open Script EmitM Emit

/-- What is emitted in place of a node: a replacement, or for a construction a copy in the shape of a
call, for which nothing else stands. -/
inductive Rewriting (n : Node) where
  | replaced (r : Replacement n)
  | construction (callee : Part n) (arguments : Option (Part n))

namespace Rewriting

variable {n : Node}

/-- The nodes of the source that are in a rewriting. -/
def sources : Rewriting n → List Node
  | .replaced r => r.sources
  | .construction callee arguments => callee.node :: (arguments.map (·.node)).toList

/-- The number of nodes of a rewriting that are new. -/
def fresh : Rewriting n → ℕ
  | .replaced r => r.fresh
  | .construction .. => 1

def emission (visit : Visit n) (place : Place) : Rewriting n → EmitM Unit
  | .replaced r => replacement visit place r
  | .construction callee _ => do
    emit "new "
    refuseTemplate { n with kind := .callExpression }
    plainCall n visit place callee

end Rewriting

/-- The rewriting of a node at its place. -/
def rewriting? (scopes : Scopes) (place : Place) (n : Node) : Option (Rewriting n) :=
  match n.kind with
  | .binaryExpression =>
    match n.operator, n.part? .left, n.part? .right with
    | "in", some left, some right => some (.replaced (.call "isset" [.element right left]))
    | _, _, _ => none
  | .unaryExpression =>
    match n.operator, n.part? .argument with
    | "typeof", some argument => some (.replaced (.call "gettype" [.source argument false]))
    | "delete", some argument => some (.replaced (.call "unset" [.source argument false]))
    | _, _ => none
  | .newExpression =>
    (n.part? .constructor).map fun callee => .construction callee (n.part? .arguments)
  | _ => (Builtin.replacement? scopes place n).map fun x => .replaced x.1

section Emission

variable {n : Node} {visit : Visit n} {context : Context} {env : EmitEnv} {s : EmitState}

/-- What stands for a call stands for no call of a function where it is written and for none with a
template in place of its arguments. -/
theorem exists_callee_of_call? {scopes : Scopes} {x : Replacement n × Event}
    (h : Builtin.call? scopes n = some x) :
    ∃ callee, need n .function = Pure.pure callee ∧
      callee.node.kind.isFunctionExpression = false ∧ refuseTemplate n = Pure.pure () := by
  unfold Builtin.call? at h
  split at h
  · rename_i callee args hcallee hargs
    refine ⟨callee, by rw [need, hcallee], ?_, ?_⟩
    · split at h
      · rename_i hkind
        rw [hkind]
        rfl
      · rename_i hkind
        rw [hkind]
        rfl
      · cases h
    · rw [refuseTemplate, ← Node.map_node_part?]
      unfold Builtin.argumentParts? at hargs
      split at hargs
      · rename_i hnone
        rw [hnone]
        rfl
      · rename_i arguments hsome
        split at hargs
        · rename_i hkind
          simp [hsome, hkind]
        · cases hargs
  · cases h

theorem run_noted (event : Option Event) (m : EmitM Unit) :
    ∃ log, (do event.forM note; m : EmitM Unit).run env s = m.run env { s with log } := by
  cases event with
  | none => exact ⟨s.log, rfl⟩
  | some e => exact ⟨s.log ++ [e], rfl⟩

theorem run_replaced {place : Place} {x : Replacement n × Option Event}
    (h : Builtin.replacement? s.scopes place n = some x) (plain : EmitM Unit) :
    ∃ log, Script.run (match Builtin.replacement? s.scopes place n with
      | some (r, event) => do
        event.forM note
        replacement visit place r
      | none => plain) env s = (replacement visit place x.1).run env { s with log } := by
  rw [h]
  exact run_noted x.2 _

theorem run_call_of_replacement? {x : Replacement n × Option Event}
    (hkind : n.kind = .callExpression)
    (h : Builtin.replacement? s.scopes context.place n = some x) :
    ∃ log, (call n visit context).run env s =
      (replacement visit context.place x.1).run env { s with log } := by
  obtain ⟨y, hy⟩ : ∃ y, Builtin.call? s.scopes n = some y := by
    rw [Builtin.replacement?, hkind] at h
    obtain ⟨y, hy, -⟩ := Option.map_eq_some_iff.mp h
    exact ⟨y, hy⟩
  obtain ⟨callee, hcallee, hfunction, hrefuse⟩ := exists_callee_of_call? hy
  rw [call, hrefuse, hcallee]
  change ∃ log, Script.run (if callee.node.kind.isFunctionExpression then _ else _) env s = _
  rw [hfunction]
  exact run_replaced h _

theorem run_member_of_replacement? {x : Replacement n × Option Event}
    (h : Builtin.replacement? s.scopes context.place n = some x) :
    ∃ log, (member n visit context).run env s =
      (replacement visit context.place x.1).run env { s with log } := by
  rw [member]
  exact run_replaced h _

/-- The rule of a node that is no name emits the rewriting of the node. -/
theorem run_rule_of_rewriting? {rule : Rule} {r : Rewriting n} (hrule : rule? n.kind = some rule)
    (hname : n.kind ≠ .identifier) (h : rewriting? s.scopes context.place n = some r) :
    ∃ log, (rule n visit context).run env s =
      (r.emission visit context.place).run env { s with log } := by
  unfold rewriting? at h
  split at h
  · rename_i hkind
    rw [hkind] at hrule
    cases hrule
    split at h
    · rename_i hoperator hleft hright
      cases h
      refine ⟨s.log, ?_⟩
      rw [binary, need, need, hleft, hright]
      change Script.run (if n.operator = "in" then _ else _) env s = _
      rw [if_pos hoperator]
      rfl
    · cases h
  · rename_i hkind
    rw [hkind] at hrule
    cases hrule
    split at h
    · rename_i hoperator hargument
      cases h
      refine ⟨s.log, ?_⟩
      rw [unary, need, hargument, hoperator]
      rfl
    · rename_i hoperator hargument
      cases h
      refine ⟨s.log, ?_⟩
      rw [unary, need, hargument, hoperator]
      rfl
    · cases h
  · rename_i hkind
    rw [hkind] at hrule
    cases hrule
    obtain ⟨callee, hcallee, rfl⟩ := Option.map_eq_some_iff.mp h
    refine ⟨s.log, ?_⟩
    rw [construction, need, hcallee]
    rfl
  · obtain ⟨x, hx, rfl⟩ := Option.map_eq_some_iff.mp h
    have hcases : n.kind = .callExpression ∨ n.kind = .memberExpression := by
      unfold Builtin.replacement? at hx
      split at hx
      · exact .inl ‹_›
      · exact .inr ‹_›
      · exact absurd ‹_› hname
      · cases hx
    rcases hcases with hkind | hkind
    · rw [hkind] at hrule
      cases hrule
      exact run_call_of_replacement? hkind hx
    · rw [hkind] at hrule
      cases hrule
      exact run_member_of_replacement? hx

end Emission

namespace Node

variable {n c m : Node} {f : Field}

theorem mem_preorder_self (n : Node) : n ∈ n.preorder := by
  rw [preorder_eq]
  exact List.mem_cons_self

theorem mem_preorder_trans {k m n : Node} (hk : k ∈ m.preorder) (hm : m ∈ n.preorder) :
    k ∈ n.preorder := by
  rw [preorder_eq n, List.mem_cons] at hm
  rcases hm with rfl | hm
  · exact hk
  · obtain ⟨c, hc, hm⟩ := mem_preorderAll.mp hm
    rw [preorder_eq n]
    exact List.mem_cons_of_mem _ (mem_preorderAll.mpr ⟨c, hc, mem_preorder_trans hk hm⟩)
termination_by n.weight
decreasing_by exact weight_lt_of_mem hc

/-- The proper descendants of a node. -/
def descendants (n : Node) : List Node := preorderAll n.children

theorem mem_descendants_of_child? (h : n.child? f = some c) (hm : m ∈ c.preorder) :
    m ∈ n.descendants :=
  mem_preorderAll.mpr ⟨c, mem_children_of_child? h, hm⟩

theorem mem_preorder_of_mem_descendants (h : m ∈ n.descendants) : m ∈ n.preorder := by
  rw [preorder_eq]
  exact List.mem_cons_of_mem _ h

theorem mem_preorder_of_child? (h : n.child? f = some c) : c ∈ n.preorder :=
  mem_preorder_of_mem_descendants (mem_descendants_of_child? h c.mem_preorder_self)

theorem holder_mem_preorder (n : Node) : n.holder ∈ n.preorder := by
  unfold holder
  split
  · rename_i hobject _
    split
    · exact n.mem_preorder_self
    · exact mem_preorder_of_child? hobject
  · exact n.mem_preorder_self

theorem mem_descendants_of_origin? (h : n.origin? = some c) (hm : m ∈ c.preorder) :
    m ∈ n.descendants := by
  unfold origin? at h
  split at h
  · cases hmember : n.calledMember? with
    | none =>
      rw [hmember] at h
      exact mem_descendants_of_child? h hm
    | some callee =>
      rw [hmember] at h
      have hcallee := (Option.filter_eq_some_iff.mp hmember).1
      exact mem_descendants_of_child? hcallee (mem_preorder_trans hm (mem_preorder_of_child? h))
  · exact mem_descendants_of_child? h hm
  · cases h

theorem mem_descendants_of_callArguments (h : m ∈ n.callArguments) : m ∈ n.descendants := by
  unfold callArguments at h
  cases harguments : n.child? .arguments with
  | none =>
    rw [harguments] at h
    cases h
  | some arguments =>
    rw [harguments] at h
    refine mem_descendants_of_child? harguments (mem_preorder_of_mem_descendants ?_)
    exact mem_preorderAll.mpr ⟨m, h, m.mem_preorder_self⟩

theorem mem_descendants_of_operands (h : m ∈ n.operands) : m ∈ n.descendants := by
  unfold operands at h
  rcases List.mem_append.mp h with h | h
  · rw [Option.mem_toList] at h
    split at h
    · obtain ⟨c, hc, rfl⟩ := Option.map_eq_some_iff.mp h
      exact mem_descendants_of_origin? hc c.holder_mem_preorder
    · exact mem_descendants_of_origin? h m.mem_preorder_self
  · split at h
    · exact mem_descendants_of_callArguments h
    · cases h

end Node

section Sources

variable {n : Node} {scopes : Scopes} {place : Place} {r : Rewriting n}

theorem Node.mem_descendants_of_part? {f : Field} {p : Part n} (h : n.part? f = some p) :
    p.node ∈ n.descendants :=
  mem_descendants_of_child? (child?_of_part? h) p.node.mem_preorder_self

/-- What a rewriting has of the source is below the node, and it has few nodes else. -/
theorem rewriting?_cases (h : rewriting? scopes place n = some r) :
    (∀ m ∈ r.sources, m ∈ n.descendants) ∧ r.fresh ≤ 6 := by
  unfold rewriting? at h
  split at h
  · split at h
    · rename_i left right _ hleft hright
      cases h
      refine ⟨?_, by simp [Rewriting.fresh, Replacement.fresh, Operand.fresh]⟩
      intro m hm
      have hm : m = right.node ∨ m = left.node := by
        simpa [Rewriting.sources, Replacement.sources, Operand.sources] using hm
      rcases hm with rfl | rfl
      · exact Node.mem_descendants_of_part? hright
      · exact Node.mem_descendants_of_part? hleft
    · cases h
  · split at h
    · rename_i hargument
      cases h
      refine ⟨?_, by simp [Rewriting.fresh, Replacement.fresh, Operand.fresh]⟩
      simpa [Rewriting.sources, Replacement.sources, Operand.sources] using
        Node.mem_descendants_of_part? hargument
    · rename_i hargument
      cases h
      refine ⟨?_, by simp [Rewriting.fresh, Replacement.fresh, Operand.fresh]⟩
      simpa [Rewriting.sources, Replacement.sources, Operand.sources] using
        Node.mem_descendants_of_part? hargument
    · cases h
  · obtain ⟨callee, hcallee, rfl⟩ := Option.map_eq_some_iff.mp h
    refine ⟨?_, by simp [Rewriting.fresh]⟩
    intro m hm
    rcases List.mem_cons.mp hm with rfl | hm
    · exact Node.mem_descendants_of_part? hcallee
    · rw [Option.mem_toList] at hm
      obtain ⟨arguments, harguments, rfl⟩ := Option.map_eq_some_iff.mp hm
      exact Node.mem_descendants_of_part? harguments
  · obtain ⟨⟨r, e⟩, hr, rfl⟩ := Option.map_eq_some_iff.mp h
    constructor
    · intro m hm
      have hsubset := (Builtin.replacement?_keepsOperands hr).subset
      exact Node.mem_descendants_of_operands (hsubset hm)
    · have hknown := Builtin.known_replacement? hr
      cases r with
      | call function operands =>
        have := hknown.2
        simp only [Rewriting.fresh, Replacement.fresh]
        omega
      | constant name => simp [Rewriting.fresh, Replacement.fresh]

theorem Builtin.replacement?_other {x : Replacement n × Option Event}
    (h : replacement? scopes place n = some x) : replacement? scopes .other n = some x := by
  unfold replacement? at h ⊢
  split at h
  · exact h
  · split at h
    · cases h
    · exact h
  · exact h
  · cases h

/-- What stands for a node has no rewriting, wherever it is. -/
theorem rewriting?_toNode_eq_none {p : Replacement n}
    (h : rewriting? scopes place n = some (.replaced p)) (scopes' : Scopes) (place' : Place) :
    rewriting? scopes' place' p.toNode = none := by
  have hcall {function : String} {operands : List (Operand n)}
      (hfunction : Builtin.globalCalls.lookup function = none) :
      rewriting? scopes' place' (Replacement.call function operands).toNode = none := by
    have hnone := Builtin.call?_toNode_eq_none hfunction scopes' operands
    simp only [rewriting?, Builtin.replacement?, Replacement.toNode] at hnone ⊢
    rw [hnone]
    rfl
  unfold rewriting? at h
  split at h
  · split at h
    · cases h
      exact hcall (by decide)
    · cases h
  · split at h
    · cases h
      exact hcall (by decide)
    · cases h
      exact hcall (by decide)
    · cases h
  · obtain ⟨callee, -, heq⟩ := Option.map_eq_some_iff.mp h
    cases heq
  · obtain ⟨x, hx, heq⟩ := Option.map_eq_some_iff.mp h
    cases heq
    have hnone := Builtin.replacement?_toNode_eq_none (Builtin.known_replacement? hx) scopes' place'
    cases hr : x.1 with
    | call function operands =>
      rw [hr] at hnone
      simp only [rewriting?, Replacement.toNode] at hnone ⊢
      rw [hnone]
      rfl
    | constant name =>
      rw [hr] at hnone
      simp only [rewriting?, Replacement.toNode] at hnone ⊢
      rw [hnone]
      rfl

/-- The rewriting of a node does not depend on its place, except that a member which is called or
written has none. -/
theorem rewriting?_other (h : rewriting? scopes place n = some r) :
    rewriting? scopes .other n = some r := by
  unfold rewriting? at h ⊢
  split at h
  · exact h
  · exact h
  · exact h
  · obtain ⟨x, hx, rfl⟩ := Option.map_eq_some_iff.mp h
    rw [Builtin.replacement?_other hx]
    rfl

end Sources

/-- The number of nodes that a step visits: a node, and the new ones that stand for it. -/
def Step.visits : Step → ℕ
  | .frame (.node n _) _ s => 1 + (rewriting? s.scopes .other n).elim 0 Rewriting.fresh
  | _ => 0

/-- Each node is charged for itself and for the new nodes that may stand for it. -/
def Tariff.ofVisits : Tariff := ⟨7, fun _ => 0, 0, 0⟩

theorem Step.visits_le (x : Step) : x.visits ≤ x.charge .ofVisits := by
  cases x with
  | frame f body s =>
    cases f with
    | node n wrapped =>
      have hfresh : (rewriting? s.scopes .other n).elim 0 Rewriting.fresh ≤ 6 := by
        cases h : rewriting? s.scopes .other n with
        | none => exact Nat.zero_le 6
        | some r => exact (rewriting?_cases h).2
      have hcharge : (Step.frame (.node n wrapped) body s).charge .ofVisits = 7 := by
        simp [Step.charge, Frame.charge, Tariff.own, Tariff.comments, Tariff.ofVisits]
      rw [hcharge, Step.visits]
      omega
    | _ => exact Nat.zero_le _
  | _ => exact Nat.zero_le _

mutual
theorem Node.length_preorder : ∀ n : Node, n.preorder.length = n.weight
  | ⟨kind, location, start, stop, text, field, tokens, attrs, leading, trailing, inner, skipped,
      children⟩ => by
    rw [preorder, weight, List.length_cons, Node.length_preorderAll children]
theorem Node.length_preorderAll : ∀ ns : List Node, (preorderAll ns).length = weightAll ns
  | [] => rfl
  | n :: rest => by
    rw [preorderAll, weightAll, List.length_append, Node.length_preorder n,
      Node.length_preorderAll rest]
end

theorem Tariff.cost_ofVisits (n : Node) : ofVisits.cost n = 7 * n.weight := by
  have hprice (m : Node) : ofVisits.own m + ofVisits.extra m = 7 := by
    simp [own, extra, comments, ofVisits]
  rw [cost_eq_sum rfl, List.map_congr_left fun m _ => hprice m, List.map_const',
    List.sum_replicate_nat, n.length_preorder, Nat.mul_comm]

/-- An emission visits at most seven nodes for each node of the tree, whether it comes to its end or
not. -/
theorem visits_le (root : Node) (env : EmitEnv) :
    (((emitProgram root).steps env {}).map Step.visits).sum ≤ 7 * root.weight := by
  have hdistinct : EmitState.Distinct {} := fun scope hscope => by cases hscope
  rw [← Tariff.cost_ofVisits]
  exact Nat.le_trans (List.sum_le_sum fun x _ => x.visits_le)
    ((fits_emitProgram .ofVisits root).costs.total_le hdistinct)

/-- Evaluation is idempotent. What is emitted in place of a node has of the source only what is
below the node, is nothing that would be rewritten in turn, and is what the rule of the node emits.
So an emission visits no more than seven nodes for each node of its tree, those included that it
makes itself. -/
theorem rewriting_settles :
    (∀ (scopes : Scopes) (place : Place) (n : Node),
      Builtin.evaluate scopes place (Builtin.evaluate scopes place n) =
        Builtin.evaluate scopes place n) ∧
    (∀ (scopes : Scopes) (place : Place) (n : Node) (r : Rewriting n),
      rewriting? scopes place n = some r → (∀ m ∈ r.sources, m ∈ n.descendants) ∧
        ∀ p : Replacement n, r = .replaced p →
          p.toNode.weight = p.fresh + (p.sources.map Node.weight).sum ∧
          ∀ (scopes' : Scopes) (place' : Place), rewriting? scopes' place' p.toNode = none) ∧
    (∀ (env : EmitEnv) (s : EmitState) (n : Node) (visit : Visit n) (context : Context)
      (rule : Rule) (r : Rewriting n), rule? n.kind = some rule → n.kind ≠ .identifier →
      rewriting? s.scopes context.place n = some r →
        rewriting? s.scopes .other n = some r ∧
        ∃ log, (rule n visit context).run env s =
          (r.emission visit context.place).run env { s with log }) ∧
    ∀ (root : Node) (env : EmitEnv),
      (((emitProgram root).steps env {}).map Step.visits).sum ≤ 7 * root.weight := by
  refine ⟨Builtin.evaluate_evaluate, ?_, ?_, visits_le⟩
  · intro scopes place n r h
    refine ⟨(rewriting?_cases h).1, ?_⟩
    rintro p rfl
    exact ⟨p.weight_toNode, rewriting?_toNode_eq_none h⟩
  · intro env s n visit context rule r hrule hname h
    exact ⟨rewriting?_other h, run_rule_of_rewriting? hrule hname h⟩

theorem rewriting_settles_indirectCall :
    (rewriting? [] .other indirectCall).map Rewriting.fresh = some 5 ∧
    ∃ r, rewriting? [] .other indirectCall = some r ∧ r.sources.map (·.text) = ["o()", "f()", "g"] ∧
      ∀ m ∈ r.sources, m ∈ indirectCall.descendants := by
  have hsome : (rewriting? [] .other indirectCall).map (·.sources.map (·.text)) =
      some ["o()", "f()", "g"] := by decide +kernel
  obtain ⟨r, hr, hsources⟩ := Option.map_eq_some_iff.mp hsome
  exact ⟨by decide +kernel, r, hr, hsources, (rewriting_settles.2.1 [] .other indirectCall r hr).1⟩

end EcmaPhp
