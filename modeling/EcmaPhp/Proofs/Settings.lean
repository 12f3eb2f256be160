import EcmaPhp.Proofs.Budget.Statement
import EcmaPhp.Proofs.Declarations
import EcmaPhp.Proofs.Soundness.Basic

/-! The statements that set fields, and the names that they bind in the scope where they stand. -/
namespace EcmaPhp
open Script EmitM Emit

namespace Script

variable {env : EmitEnv} {α : Type} {s t : EmitState} {a : α} {xs : List Step}

/-- A node is emitted by the rule for its kind. -/
theorem Runs.eq_of_emitNode {n : Node} {rule : Rule} {context : Context}
    (hr : Runs env (emitNode n context) s () t xs) (hrule : rule? n.kind = some rule) :
    ∃ wrapped u ys,
      Runs env (rule n (fun p c => emitNode p.node c) context) (Frame.enter (.node n wrapped) s)
        () u ys ∧
      t = Frame.exit (.node n wrapped) s u ∧
      xs = .frame (.node n wrapped) (rule n (fun p c => emitNode p.node c) context) s :: ys := by
  rw [emitNode, hrule] at hr
  exact hr.of_around

theorem Runs.of_emitNode {n : Node} {rule : Rule} {context : Context}
    (hr : Runs env (emitNode n context) s () t xs) (hrule : rule? n.kind = some rule) :
    ∃ wrapped u ys,
      Runs env (rule n (fun p c => emitNode p.node c) context) (Frame.enter (.node n wrapped) s)
        () u ys ∧
      t = Frame.exit (.node n wrapped) s u ∧ ys ⊆ xs := by
  obtain ⟨wrapped, u, ys, hbody, ht, rfl⟩ := hr.eq_of_emitNode hrule
  exact ⟨wrapped, u, ys, hbody, ht, List.subset_cons_self _ ys⟩

end Script

namespace Node

variable {statement : Node} {key : String}

/-- A statement that sets a field is an assignment to it. -/
theorem exists_assignment (h : statement.assignedField? = some key) :
    statement.kind = .expressionStatement ∧ isThisKey key = true ∧
      ∃ e rest, statement.children = e :: rest ∧ e.kind = .assignmentExpression ∧
        (e.child? .left).bind bindingKey? = some key := by
  unfold assignedField? expression? at h
  split at h
  · cases h
  · rename_i e he
    split at he
    · rename_i hkind
      obtain ⟨rest, hchildren⟩ := List.head?_eq_some_iff.mp he
      split at h
      · obtain ⟨hkey, hthis⟩ := Option.filter_eq_some_iff.mp h
        exact ⟨hkind, hthis, e, rest, hchildren, ‹_›, hkey⟩
      · cases h
    · cases he

end Node

section Binding

variable {env : EmitEnv} {s t : EmitState} {xs : List Step} {n : Node} {key : String}

theorem binds_register {target : Node} (hkey : target.bindingKey? = some key)
    (hs : s.scopes ≠ []) : (Action.apply (.register target) s).Binds key := by
  have haccessor : target.accessor? = none := by
    by_cases hkind : target.kind = .methodDefinition
    · simp [Node.bindingKey?, hkind] at hkey
    · simp [Node.accessor?, hkind]
  have hbindings : target.bindings = [(key, target)] := by rw [Node.bindings, hkey]
  apply (Action.binds_iff _ hs).mpr
  exact .inr ⟨rfl, haccessor, by simp [hbindings]⟩

theorem binds_registerTarget {target : Node} (hr : Runs env (registerTarget target) s () t xs)
    (hkey : target.bindingKey? = some key) (hthis : Node.isThisKey key = true)
    (hs : s.scopes ≠ []) : t.Binds key := by
  unfold registerTarget at hr
  split at hr
  · obtain ⟨rfl, -⟩ := hr.of_act
    exact binds_register hkey hs
  · rw [hkey] at hr
    obtain ⟨scopes, _, _, _, hscopes, hrest, rfl⟩ := hr.of_bind
    obtain ⟨rfl, rfl, rfl⟩ := hscopes.of_ask
    have hbegins : "this.".toList.isPrefixOf key.toList = true := hthis
    rw [hbegins, Bool.true_or, if_pos rfl] at hrest
    obtain ⟨rfl, -⟩ := hrest.of_act
    exact binds_register hkey hs

/-- An assignment to a field binds it. -/
theorem binds_assignment {context : Context} (hr : Runs env (emitNode n context) s () t xs)
    (hkind : n.kind = .assignmentExpression)
    (hkey : (n.child? .left).bind Node.bindingKey? = some key) (hthis : Node.isThisKey key = true)
    (hs : s.scopes ≠ []) : t.Binds key := by
  obtain ⟨wrapped, u, ys, hrule, rfl, -⟩ := hr.of_emitNode (by rw [hkind]; rfl)
  obtain ⟨left, hleft, hrule⟩ := hrule.of_need
  obtain ⟨right, -, hrule⟩ := hrule.of_need
  obtain ⟨_, v, _, _, htarget, hrest, rfl⟩ := hrule.of_bind
  rw [Node.child?_of_part? hleft] at hkey
  exact (binds_registerTarget htarget hkey hthis hs).evolves hrest.evolves

theorem binds_statement (hr : Runs env (emitNode n {}) s () t xs)
    (hfield : n.assignedField? = some key) (hs : s.scopes ≠ []) : t.Binds key := by
  obtain ⟨hkind, hthis, e, rest, hchildren, hassign, hkey⟩ := Node.exists_assignment hfield
  obtain ⟨wrapped, u, ys, hrule, rfl, -⟩ := hr.of_emitNode (by rw [hkind]; rfl)
  have hstrict : n.isStrictDirective = false := by
    simp [Node.isStrictDirective, Node.expression?, hkind, hchildren, hassign]
  have hparts := n.map_node_parts
  dsimp only [expressionStatement] at hrule
  cases hp : n.parts with
  | nil => simp [hp, hchildren] at hparts
  | cons p parts =>
    obtain rfl : p.node = e := by
      rw [hp, hchildren] at hparts
      exact (List.cons.inj hparts).1
    rw [hp] at hrule
    simp only [hstrict, Bool.false_eq_true, if_false] at hrule
    obtain ⟨_, v, _, _, hvisit, hrest, rfl⟩ := hrule.of_bind
    exact (binds_assignment hvisit hassign hkey hthis hs).evolves hrest.evolves

end Binding

/-- A script that binds a name in the scope where it runs. -/
def Script.Binds (env : EmitEnv) {h : Bool} {α : Type} (m : Script h α) (key : String) : Prop :=
  ∀ ⦃s : EmitState⦄ ⦃a : α⦄ ⦃t : EmitState⦄ ⦃xs : List Step⦄, Runs env m s a t xs → s.scopes ≠ [] →
    t.Binds key

namespace Script

variable {env : EmitEnv} {h : Bool} {α β : Type} {key : String}

theorem Binds.bind_left {m : Script h α} (hm : m.Binds env key) (f : α → Script h β) :
    (m >>= f).Binds env key := by
  intro s a t xs hr hs
  obtain ⟨_, u, _, _, hfirst, hrest, -⟩ := hr.of_bind
  exact (hm hfirst hs).evolves hrest.evolves

theorem Binds.bind_right (m : Script h α) {f : α → Script h β} (hf : ∀ a, (f a).Binds env key) :
    (m >>= f).Binds env key := by
  intro s a t xs hr hs
  obtain ⟨b, u, _, _, hfirst, hrest, -⟩ := hr.of_bind
  exact hf b hrest (EmitState.scopes_ne_nil_of_evolves hs hfirst.evolves)

/-- In a frame that opens no scope, the names of the frame are those around it. -/
theorem Binds.within {f : Frame} {body : Script h α} (hf : f.scopes = [])
    (hbody : body.Binds env key) : (EmitM.within f body).Binds env key := by
  intro s a t xs hr hs
  obtain ⟨u, _, hinner, rfl, -⟩ := hr.of_within
  have hbinds : u.Binds key := by
    apply hbody hinner
    rw [f.scopes_enter, hf]
    exact hs
  have hscopes : (f.exit s u).scopes = u.scopes := by
    rw [f.scopes_exit, hf]
    rfl
  rwa [EmitState.Binds, hscopes]

theorem Binds.forM {f : β → Script h Unit} {bs : List β} {b : β} (hb : b ∈ bs)
    (hstep : (f b).Binds env key) : (bs.forM f).Binds env key := by
  intro s _ t xs hr hs
  obtain ⟨before, after, rfl⟩ := List.append_of_mem hb
  obtain ⟨u, v, _, _, _, hbefore, hrun, hafter, -⟩ := hr.of_forM
  have hu : u.scopes ≠ [] := EmitState.scopes_ne_nil_of_evolves hs hbefore.evolves
  exact (hstep hrun hu).evolves hafter.evolves

variable {n : Node} {rule : Rule} {context : Context}

theorem Binds.emitNode (hrule : rule? n.kind = some rule)
    (hbody : (rule n (fun p c => emitNode p.node c) context).Binds env key) :
    (EcmaPhp.emitNode n context).Binds env key := by
  intro s _ t xs hr hs
  obtain ⟨wrapped, u, _, hrun, rfl, -⟩ := hr.of_emitNode hrule
  have hbinds : u.Binds key := hbody hrun hs
  exact hbinds

end Script

namespace Node

/-- The statements in a statement that have no scope between them and it. The statements of a
`catch` clause are not among them. -/
def substatements (n : Node) : List Node :=
  match n.kind with
  | .statementBlock | .switchBody => n.children
  | .switchCase | .switchDefault => n.childrenIn .body
  | .ifStatement => (n.child? .consequence).toList ++ (n.child? .alternative).toList
  | .elseClause => n.children.head?.toList
  | .tryStatement => (n.child? .body).toList ++ (n.child? .finalizer).toList
  | .whileStatement | .doStatement | .forStatement | .forInStatement | .switchStatement
  | .labeledStatement | .finallyClause => (n.child? .body).toList
  | _ => []

/-- A statement sets a field in its own scope. -/
inductive SetsField (key : String) : Node → Prop where
  | assignment {n : Node} (h : n.assignedField? = some key) : SetsField key n
  | inside {n c : Node} (hc : c ∈ n.substatements) (h : SetsField key c) : SetsField key n

/-- The comments before a statement do not matter. -/
theorem SetsField.of_unled {n m : Node} {key : String} (h : n.SetsField key)
    (heq : m.unled = n.unled) : m.SetsField key := by
  have hassigned (n : Node) : n.unled.assignedField? = n.assignedField? := rfl
  have hsubstatements (n : Node) : n.unled.substatements = n.substatements := rfl
  cases h with
  | assignment h => exact .assignment (by rw [← hassigned, heq, hassigned, h])
  | inside hc h => exact .inside (by rwa [← hsubstatements, heq, hsubstatements]) h

end Node

section Substatements

variable {env : EmitEnv} {n c : Node} {key : String} {f : Field} {visit : Visit n}

/-- A rule binds what the part binds that it emits in a field. -/
theorem binds_need {k : Part n → EmitM Unit} (hc : n.child? f = some c)
    (hk : ∀ p : Part n, p.node = c → (k p).Binds env key) : (need n f >>= k).Binds env key := by
  intro s _ t xs hr hs
  obtain ⟨p, hp, hrest⟩ := hr.of_need
  rw [Node.child?_of_part? hp] at hc
  exact hk p (Option.some.inj hc) hrest hs

theorem binds_bracedBody {p : Part n} (hp : (visit p {}).Binds env key) :
    (bracedBody visit p).Binds env key := by
  unfold bracedBody
  split
  · exact hp.within rfl
  · exact (Script.Binds.bind_right _ fun _ => hp).within rfl

theorem binds_statements {parts : List (Part n)} {p : Part n} (hmem : p ∈ parts)
    (hp : (visit p {}).Binds env key) : (statements visit parts).Binds env key :=
  .bind_right _ fun _ => .forM hmem hp

variable (hvisit : ∀ p : Part n, p.node = c → (visit p {}).Binds env key)

include hvisit

theorem binds_parts (hc : c ∈ n.children) : (statements visit n.parts).Binds env key := by
  rw [← n.map_node_parts] at hc
  obtain ⟨p, hp, hnode⟩ := List.mem_map.mp hc
  exact binds_statements hp (hvisit p hnode)

theorem binds_caseBody (hc : c ∈ n.childrenIn .body) : (match n.partsIn .body with
    | [] => Pure.pure ()
    | body => do
      emit " "
      statements visit body : EmitM Unit).Binds env key := by
  rw [← map_node_partsIn] at hc
  obtain ⟨p, hp, hnode⟩ := List.mem_map.mp hc
  split
  · rename_i hnone
    simp [hnone] at hp
  · exact .bind_right _ fun _ => binds_statements hp (hvisit p hnode)

theorem binds_switchCase (hc : c ∈ n.childrenIn .body) : (switchCase n visit).Binds env key := by
  have hbody := (binds_caseBody hvisit hc).within (f := .indent) rfl
  unfold switchCase
  cases n.part? .value with
  | some value => exact .bind_right _ fun _ => .bind_right _ fun _ => .bind_right _ fun _ => hbody
  | none => exact .bind_right _ fun _ => hbody

theorem binds_braced (hc : n.child? f = some c) :
    (need n f >>= fun p => bracedBody visit p).Binds env key :=
  binds_need hc fun p hp => binds_bracedBody (hvisit p hp)

theorem binds_ifStatement (hc : n.child? .consequence = some c ∨ n.child? .alternative = some c) :
    (ifStatement n visit).Binds env key := by
  refine .bind_right _ fun _ => .bind_right _ fun _ => .bind_right _ fun _ => .bind_right _ fun _ => ?_
  rcases hc with hc | hc
  · exact binds_need hc fun p hp => (binds_bracedBody (hvisit p hp)).bind_left _
  · obtain ⟨p, hp, hnode⟩ := Option.map_eq_some_iff.mp ((n.map_node_part? .alternative).trans hc)
    rw [hp]
    exact .bind_right _ fun _ => .bind_right _ fun _ => .bind_right _ fun _ => hvisit p hnode

theorem binds_elseClause (hc : n.children.head? = some c) : (elseClause n visit).Binds env key := by
  rw [← n.map_node_parts, List.head?_map] at hc
  obtain ⟨p, hp, hnode⟩ := Option.map_eq_some_iff.mp hc
  obtain ⟨rest, hparts⟩ := List.head?_eq_some_iff.mp hp
  unfold elseClause
  rw [needFirst_eq hparts]
  refine .bind_right _ fun _ => ?_
  change (if p.node.kind = .ifStatement then visit p {} else bracedBody visit p).Binds env key
  split
  · exact hvisit p hnode
  · exact binds_bracedBody (hvisit p hnode)

theorem binds_tryStatement (hc : n.child? .body = some c ∨ n.child? .finalizer = some c) :
    (tryStatement n visit).Binds env key := by
  refine .bind_right _ fun _ => ?_
  rcases hc with hc | hc
  · exact binds_need hc fun p hp => (binds_bracedBody (hvisit p hp)).bind_left _
  · obtain ⟨p, hp, hnode⟩ := Option.map_eq_some_iff.mp ((n.map_node_part? .finalizer).trans hc)
    have hmem : some p ∈ [n.part? .handler, n.part? .finalizer] := by simp [hp]
    refine .bind_right _ fun _ => .bind_right _ fun _ => .forM hmem ?_
    exact .bind_right _ fun _ => hvisit p hnode

end Substatements

theorem binds_substatement {env : EmitEnv} {n c : Node} {key : String} (hc : c ∈ n.substatements)
    (h : (emitNode c {}).Binds env key) : (emitNode n {}).Binds env key := by
  have hvisit : ∀ p : Part n, p.node = c → (emitNode p.node {}).Binds env key := by
    rintro p rfl
    exact h
  have hone {o : Option Node} (h : c ∈ o.toList) : o = some c := Option.mem_toList.mp h
  -- One case for each kind of statement that has others inside.
  cases hkind : n.kind
  all_goals simp only [Node.substatements, hkind, List.not_mem_nil] at hc
  all_goals apply Binds.emitNode (congrArg rule? hkind)
  case statementBlock => exact binds_parts hvisit hc
  case switchBody => exact .within rfl (binds_parts hvisit hc)
  case switchCase | switchDefault => exact binds_switchCase hvisit hc
  case ifStatement => exact binds_ifStatement hvisit ((List.mem_append.mp hc).imp hone hone)
  case elseClause => exact binds_elseClause hvisit (hone hc)
  case tryStatement => exact binds_tryStatement hvisit ((List.mem_append.mp hc).imp hone hone)
  case whileStatement =>
    exact .bind_right _ fun _ => .bind_right _ fun _ => .bind_right _ fun _ => .bind_right _ fun _ =>
      binds_braced hvisit (hone hc)
  case doStatement =>
    exact .bind_right _ fun _ => binds_need (hone hc) fun p hp =>
      (binds_bracedBody (hvisit p hp)).bind_left _
  case forStatement =>
    exact .bind_right _ fun _ => .bind_right _ fun _ => .bind_right _ fun _ =>
      binds_braced hvisit (hone hc)
  case forInStatement =>
    exact .bind_right _ fun _ => .bind_right _ fun _ => .bind_right _ fun _ => .bind_right _ fun _ =>
      .bind_right _ fun _ => .bind_right _ fun _ => binds_braced hvisit (hone hc)
  case switchStatement =>
    exact .bind_right _ fun _ => .bind_right _ fun _ => .bind_right _ fun _ => .bind_right _ fun _ =>
      binds_need (hone hc) hvisit
  case labeledStatement => exact binds_need (hone hc) hvisit
  case finallyClause => exact .bind_right _ fun _ => binds_braced hvisit (hone hc)

/-- A statement binds the fields that it sets. -/
theorem binds_setsField {env : EmitEnv} {n : Node} {key : String} (h : n.SetsField key) :
    (emitNode n {}).Binds env key := by
  induction h with
  | assignment h => exact fun _ _ _ _ hr hs => binds_statement hr h hs
  | inside hc _ ih => exact binds_substatement hc ih

/-- The scope of a function has the fields that its body sets. -/
theorem defines_function {env : EmitEnv} {s t : EmitState} {xs : List Step} {n : Node}
    {key header : String} {form : FunctionForm} {params : Option (Part n)} {body : Part n}
    {scope : Scope}
    (hr : Runs env (function (fun p c => emitNode p.node c) header form params body) s scope t xs)
    (hsets : body.node.SetsField key) : scope.defines key = true := by
  cases hr with
  | @function _ _ _ _ _ _ _ _ u v _ _ _ _ first inner rest =>
    obtain ⟨rfl, -, -⟩ := rest.of_pure
    have hu : u.scopes ≠ [] :=
      EmitState.scopes_ne_nil_of_evolves (List.cons_ne_nil _ s.scopes) first.evolves
    exact ((binds_setsField hsets).bind_left _ inner hu).innermost

end EcmaPhp
