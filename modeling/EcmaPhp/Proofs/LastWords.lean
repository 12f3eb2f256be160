import EcmaPhp.Proofs.Builtin.Evaluation
import EcmaPhp.Proofs.References
import EcmaPhp.Proofs.Script.Inks
import EcmaPhp.Proofs.Visits

/-! An expression ends in code: in a word or a delimiter of its own, or in an operand that does. So
after an expression, the end of the output shows what was written for it. -/
namespace EcmaPhp
open Script EmitM Ink

/-- The kinds of nodes that stand for values, with their lists of arguments and the names of
properties. A node of a kind without a rule is refused. -/
def Kind.isExpression : Kind → Bool
  | .identifier | .propertyIdentifier | .privatePropertyIdentifier | .thisValue | .superValue
  | .trueValue | .falseValue | .nullValue | .undefinedValue | .number | .string | .regex
  | .templateString | .binaryExpression | .assignmentExpression | .augmentedAssignment
  | .ternaryExpression | .unaryExpression | .updateExpression | .sequenceExpression
  | .yieldExpression | .awaitExpression | .callExpression | .newExpression | .arguments
  | .memberExpression | .subscriptExpression | .function | .functionExpression
  | .generatorFunction | .arrowFunction | .object | .array | .spreadElement | .other _ => true
  | _ => false

namespace Node

/-- Expressions in place of arguments: a list of them, or a template, which is refused. -/
def hasArguments (list : Node) : Bool :=
  list.kind.isExpression &&
    (list.kind = .templateString || list.children.all (·.kind.isExpression))

/-- A call with a template in place of arguments. -/
def isTagged (n : Node) : Bool := (n.child? .arguments).any (·.kind = .templateString)

/-- What a node has in a field is an expression. -/
def hasExpression (n : Node) (f : Field) : Bool := (n.child? f).all (·.kind.isExpression)

/-- What a node has first is an expression. -/
def startsExpression (n : Node) : Bool := n.children.head?.all (·.kind.isExpression)

/-- The children that the grammar gives to a node, as far as its last word depends on them: names
and numbers have text, and the operands of expressions and statements are expressions. -/
def hasLastWord (n : Node) : Bool :=
  match n.kind with
  | .identifier | .trueValue | .falseValue | .nullValue => hard n.text.toList ≠ []
  | .propertyIdentifier | .privatePropertyIdentifier => hard n.publicName.toList ≠ []
  | .number => hard (Literal.number n.text.toList) ≠ []
  | .binaryExpression | .assignmentExpression | .augmentedAssignment => n.hasExpression .right
  | .ternaryExpression => n.hasExpression .alternative
  | .unaryExpression | .updateExpression => n.hasExpression .argument
  | .sequenceExpression => n.children ≠ [] && n.children.all (·.kind.isExpression)
  | .yieldExpression | .awaitExpression | .spreadElement | .expressionStatement
  | .returnStatement | .throwStatement => n.startsExpression
  | .callExpression | .newExpression =>
    n.hasExpression .function && (n.child? .arguments).all hasArguments
  | .memberExpression => n.hasExpression .object && n.hasExpression .property
  | .variableDeclarator => n.hasExpression .value
  | _ => true

/-- A tree of the grammar, as far as last words go. -/
def LastWords (n : Node) : Prop := ∀ m ∈ n.preorder, m.hasLastWord = true

instance (n : Node) : Decidable n.LastWords :=
  inferInstanceAs (Decidable (∀ m ∈ n.preorder, m.hasLastWord = true))

variable {n m c : Node} {f : Field}

theorem LastWords.self (h : n.LastWords) : n.hasLastWord = true :=
  h n (by rw [preorder_eq]; exact List.mem_cons_self)

theorem LastWords.child (h : n.LastWords) (hc : c ∈ n.children) : c.LastWords := by
  intro m hm
  apply h
  rw [preorder_eq]
  exact List.mem_cons_of_mem n (mem_preorderAll.mpr ⟨c, hc, hm⟩)

theorem LastWords.held (h : n.LastWords) (hm : n.Holds m) : m.LastWords := by
  induction hm with
  | child hc => exact h.child hc
  | through _ _ hc ih => exact ih.child hc

theorem isExpression_of_child? (h : n.hasExpression f = true) (hm : n.child? f = some m) :
    m.kind.isExpression = true := by
  rwa [hasExpression, hm] at h

theorem isExpression_of_part? {p : Part n} (h : n.hasExpression f = true)
    (hp : n.part? f = some p) : p.node.kind.isExpression = true :=
  isExpression_of_child? h (child?_of_part? hp)

theorem isExpression_of_head? {p : Part n} (h : n.startsExpression = true)
    (hp : n.parts.head? = some p) : p.node.kind.isExpression = true := by
  rwa [startsExpression, ← map_node_parts, List.head?_map, hp] at h

end Node

namespace Emit

variable {env : EmitEnv} {n : Node} {visit : Visit n} {β : Type}

section Steps

theorem settles_need {f : Field} {k : Part n → EmitM β}
    (hk : ∀ p, n.part? f = some p → (k p).Settles env) : (need n f >>= k).Settles env := by
  intro s a t xs hr
  obtain ⟨p, hp, hrest⟩ := hr.of_need
  rw [need, hp]
  exact hk p hp s a t xs hrest

theorem settles_needFirst {k : Part n → EmitM β}
    (hk : ∀ p, n.parts.head? = some p → (k p).Settles env) : (needFirst n >>= k).Settles env := by
  rw [needFirst]
  split
  · rename_i p rest hparts
    exact hk p (by rw [hparts]; rfl)
  · intro s a t xs hr
    cases hr

theorem settles_unsupported {α : Type} (reason : String) (f : α → EmitM β) :
    ((unsupported n reason : EmitM α) >>= f).Settles env := by
  intro s a t xs hr
  cases hr

theorem settles_separated {separator : String} {steps : List (EmitM Unit)} (hsteps : steps ≠ [])
    (h : ∀ m ∈ steps, m.Settles env) : (separated separator steps).Settles env := by
  induction steps with
  | nil => exact absurd rfl hsteps
  | cons step rest ih =>
    cases rest with
    | nil => exact h step (by simp)
    | cons next others =>
      exact .right fun _ => .right fun _ => ih (by simp) fun m hm => h m (by simp [hm])

theorem hard_arrayClose (options : Options) : hard options.arrayClose.toList ≠ [] := by
  rw [Options.arrayClose]
  split <;> decide

theorem settles_arrayBlock (body : EmitM Unit) : (arrayBlock body).Settles env :=
  .right fun options => settles_block (hard_arrayClose options) (hard_arrayClose options)

theorem settles_argumentList (body : EmitM Unit) : (argumentList body).Settles env :=
  .right fun _ => .right fun _ => settles_emit (by decide)

end Steps

section Words

theorem hard_string (quote : Char) (body : List Char) : hard (Literal.string quote body) ≠ [] := by
  rw [Literal.string]
  split
  · exact hard_ne_nil (c := 'N') (by simp) (by decide)
  · split
    · rename_i h
      have hquote : quote = '\'' := by simp_all
      exact hard_ne_nil (c := '\'') (by simp [hquote]) (by decide)
    · exact hard_ne_nil (c := '"') (by simp [Literal.doubleQuoted]) (by decide)

theorem settles_stringText (m : Node) (text : String) : (stringText m text).Settles env := by
  rw [stringText]
  split
  · exact settles_fail _
  · exact settles_emitChars (hard_string _ _)

theorem settles_regexLiteral : (regexLiteral n).Settles env :=
  settles_need fun pattern _ =>
    settles_emitChars (hard_ne_nil (c := '\'') (by simp [Literal.regex]) (by decide))

theorem settles_identifier (context : Context) (htext : hard n.text.toList ≠ []) :
    (identifier n context).Settles env := by
  have hdollar (text : String) : (emit ("$" ++ text) : EmitM Unit).Settles env :=
    settles_emit (hard_ne_nil (c := '$') (by simp) (by decide))
  rw [identifier]
  split
  · exact settles_emit htext
  · split
    · exact settles_emit (by decide)
    · refine .right fun scopes => ?_
      split
      · rename_i constant hconstant
        have hconstants : ∀ p ∈ Builtin.globalConstants, hard p.2.toList ≠ [] := by decide
        exact settles_emit (hconstants _ (mem_of_constant? hconstant))
      · refine .right fun definition? => ?_
        split
        · split
          · exact settles_emit (by decide)
          · exact hdollar _
        · split
          · exact settles_emit (hard_ne_nil (c := '\'') (by simp [toString]) (by decide))
          · split
            · exact settles_emit (hard_ne_nil (c := ':') (by simp) (by decide))
            · exact hdollar _

end Words

section Operands

theorem hasExpression_of_hasArguments (h : (n.child? .arguments).all Node.hasArguments = true) :
    n.hasExpression .arguments = true := by
  rw [Node.hasExpression]
  cases hlist : n.child? .arguments with
  | none => rfl
  | some list =>
    simp only [hlist, Option.all_some, Node.hasArguments, Bool.and_eq_true] at h
    simpa using h.1

theorem isExpression_of_mem_callArguments {m : Node}
    (h : (n.child? .arguments).all Node.hasArguments = true) (htagged : ¬ n.isTagged)
    (hm : m ∈ n.callArguments) : m.kind.isExpression = true := by
  unfold Node.callArguments at hm
  unfold Node.isTagged at htagged
  cases hlist : n.child? .arguments with
  | none => simp [hlist] at hm
  | some list =>
    rw [hlist] at h hm htagged
    have hkind : list.kind ≠ .templateString := by simpa using htagged
    have hall : list.children.all (·.kind.isExpression) = true := by
      simpa [Node.hasArguments, hkind] using (Bool.and_eq_true_iff.mp h).2
    exact List.all_eq_true.mp hall m hm

theorem isExpression_of_origin? {m : Node} (hn : n.LastWords) (h : n.origin? = some m) :
    m.kind.isExpression = true := by
  have hself := hn.self
  unfold Node.origin? at h
  split at h
  · rename_i hkind
    simp only [Node.hasLastWord, hkind, Bool.and_eq_true] at hself
    cases hmember : n.calledMember? with
    | none =>
      rw [hmember] at h
      exact Node.isExpression_of_child? hself.1 h
    | some member =>
      obtain ⟨hfunction, hmemberKind⟩ := Option.filter_eq_some_iff.mp hmember
      rw [hmember] at h
      have hobject := (hn.child (List.mem_of_find?_eq_some hfunction)).self
      simp only [Node.hasLastWord, of_decide_eq_true hmemberKind, Bool.and_eq_true] at hobject
      exact Node.isExpression_of_child? hobject.1 h
  · rename_i hkind
    simp only [Node.hasLastWord, hkind, Bool.and_eq_true] at hself
    exact Node.isExpression_of_child? hself.1 h
  · cases h

theorem isExpression_holder {m : Node} (hm : m.LastWords) (hkind : m.kind.isExpression = true) :
    m.holder.kind.isExpression = true := by
  unfold Node.holder
  split
  · rename_i object _ hmember hobject _
    split
    · exact hkind
    · have hself := hm.self
      simp only [Node.hasLastWord, hmember, Bool.and_eq_true] at hself
      exact Node.isExpression_of_child? hself.1 hobject
  · exact hkind

/-- The operands of a call or a member are expressions. -/
theorem isExpression_of_mem_operands {m : Node} (hn : n.LastWords)
    (hlist : n.kind = .callExpression → ¬ n.isTagged) (hm : m ∈ n.operands) :
    m.kind.isExpression = true := by
  unfold Node.operands at hm
  rcases List.mem_append.mp hm with hfirst | hrest
  · rw [Option.mem_toList] at hfirst
    split at hfirst
    · obtain ⟨origin, horigin, rfl⟩ := Option.map_eq_some_iff.mp hfirst
      exact isExpression_holder (hn.held (Node.holds_of_origin? horigin))
        (isExpression_of_origin? hn horigin)
    · exact isExpression_of_origin? hn hfirst
  · split at hrest
    · rename_i hkind
      have hself := hn.self
      simp only [Node.hasLastWord, hkind, Bool.and_eq_true] at hself
      exact isExpression_of_mem_callArguments hself.2 (hlist hkind) hrest
    · cases hrest

variable (hv : ∀ p c, n.Holds p.node → p.node.kind.isExpression = true → (visit p c).Settles env)
include hv

/-- A literal in place of an operand may be blank, but it leaves the end readable. -/
theorem retains_operand (alone : Bool) {o : Operand n}
    (ho : ∀ part wasAlone, o = .source part wasAlone →
      n.Holds part.node ∧ part.node.kind.isExpression = true) :
    (operand visit alone o).Retains env := by
  cases o with
  | source part wasAlone =>
    obtain ⟨hheld, hkind⟩ := ho part wasAlone rfl
    exact (hv part _ hheld hkind).retains
  | literal kind text =>
    rcases eq_or_ne kind .string with rfl | hkind
    · exact (settles_stringText n text).retains
    · have hemit : operand visit alone (.literal kind text) = emit text := by
        cases kind <;> first | rfl | exact absurd rfl hkind
      rw [hemit]
      exact retains_emit text
  | emptyArray => exact (settles_arrayBlock _).retains
  | method object name => exact (settles_arrayBlock _).retains
  | element container index =>
    exact Settles.retains (.right fun _ => settles_block (by decide) (by decide))

theorem settles_phpCall (place : Place) (function : String) {operands : List (Operand n)}
    (h : ∀ part wasAlone, .source part wasAlone ∈ operands →
      n.Holds part.node ∧ part.node.kind.isExpression = true) :
    (phpCall visit place function operands).Settles env := by
  unfold phpCall
  dsimp only
  split
  · rename_i list value _ hemitted
    have hvalue : value ∈ operands.map (operand visit (operands.length = 1)) := by
      simp [hemitted]
    obtain ⟨o, ho, rfl⟩ := List.mem_map.mp hvalue
    refine .right fun _ => Settles.left (settles_emit (by decide)) fun _ => ?_
    exact retains_operand hv _ fun part wasAlone hsource => h part wasAlone (hsource ▸ ho)
  · exact .right fun _ => settles_argumentList _

theorem settles_replacement (place : Place) {r : Replacement n} (hr : r.Known)
    (h : ∀ m ∈ r.sources, n.Holds m ∧ m.kind.isExpression = true) :
    (replacement visit place r).Settles env := by
  cases r with
  | call function operands =>
    refine settles_phpCall hv place function fun part wasAlone hsource => ?_
    exact h part.node (List.mem_flatMap_of_mem hsource (by simp [Operand.sources]))
  | constant name =>
    have hconstants : ∀ name ∈ Builtin.constants, hard name.toList ≠ [] := by decide +kernel
    exact settles_emit (hconstants name hr)

end Operands

section Calls

variable (hv : ∀ p c, n.Holds p.node → p.node.kind.isExpression = true → (visit p c).Settles env)

theorem settles_refuseTemplate {m : Node} {k : Unit → EmitM Unit}
    (hk : ¬ m.isTagged → (k ()).Settles env) : (refuseTemplate m >>= k).Settles env := by
  rw [refuseTemplate]
  split
  · exact settles_unsupported _ _
  · rename_i htagged
    exact hk htagged

include hv

theorem settles_inlineCall (place : Place) (callee : Part n)
    (harguments : n.hasExpression .arguments = true) :
    (inlineCall n visit place callee).Settles env := by
  unfold inlineCall
  split
  · refine .right fun _ => .right fun _ => .right fun _ => .right fun _ => ?_
    exact settles_need fun p hp =>
      hv p _ (.of_part? hp) (Node.isExpression_of_part? harguments hp)
  · exact .right fun _ => .right fun _ => .right fun _ => settles_emit (by decide)

theorem settles_givenArguments
    (harguments : (n.child? .arguments).all Node.hasArguments = true) :
    (match n.part? .arguments with
      | some args => visit args {}
      | none => emit "()").Settles env := by
  split
  · rename_i args hargs
    exact hv args _ (.of_part? hargs)
      (Node.isExpression_of_part? (hasExpression_of_hasArguments harguments) hargs)
  · exact settles_emit (by decide)

theorem settles_plainCall (place : Place) (callee : Part n)
    (harguments : (n.child? .arguments).all Node.hasArguments = true) (htagged : ¬ n.isTagged) :
    (plainCall n visit place callee).Settles env := by
  refine .right fun scopes => ?_
  dsimp only
  split
  · rename_i list value _ hparts
    have hmem : value ∈ ((n.part? .arguments).map Part.parts).getD [] := by simp [hparts]
    have hvalue : value.node ∈ n.callArguments := by
      cases hargs : n.part? .arguments with
      | none => simp [hargs] at hmem
      | some args =>
        rw [hargs] at hmem
        rw [Node.callArguments, Node.child?_of_part? hargs]
        exact Part.mem_children_of_mem_parts hmem
    exact .right fun _ => .right fun _ => hv value _ (holds_arguments value hmem)
      (isExpression_of_mem_callArguments harguments htagged hvalue)
  · split
    · exact .right fun _ => settles_givenArguments hv harguments
    · exact .right fun _ => settles_givenArguments hv harguments

theorem settles_construction (context : Context)
    (harguments : (n.child? .arguments).all Node.hasArguments = true) :
    (construction n visit context).Settles env :=
  settles_need fun callee _ => .right fun _ =>
    settles_refuseTemplate fun htagged => settles_plainCall hv _ callee harguments htagged

variable (hn : n.LastWords)
include hn

theorem settles_replacement? {scopes : Scopes} {place : Place} {r : Replacement n}
    {e : Option Event} (hlist : n.kind = .callExpression → ¬ n.isTagged)
    (h : Builtin.replacement? scopes place n = some (r, e)) :
    (replacement visit place r).Settles env := by
  refine settles_replacement hv place (Builtin.known_replacement? h) fun m hm => ?_
  have hoperand := (Builtin.replacement?_keepsOperands h).subset hm
  exact ⟨Node.holds_of_mem_operands hoperand, isExpression_of_mem_operands hn hlist hoperand⟩

theorem settles_call (context : Context)
    (harguments : (n.child? .arguments).all Node.hasArguments = true) :
    (call n visit context).Settles env := by
  refine settles_refuseTemplate fun htagged => settles_need fun callee _ => ?_
  split
  · exact settles_inlineCall hv _ callee (hasExpression_of_hasArguments harguments)
  · refine .right fun scopes => ?_
    split
    · rename_i r event hr
      exact .right fun _ => settles_replacement? hv hn (fun _ => htagged) hr
    · exact settles_plainCall hv _ callee harguments htagged

theorem settles_member (context : Context) (hkind : n.kind = .memberExpression)
    (hproperty : n.hasExpression .property = true) : (member n visit context).Settles env := by
  refine .right fun scopes => ?_
  split
  · rename_i r event hr
    exact .right fun _ => settles_replacement? hv hn (by simp [hkind]) hr
  · refine settles_need fun object _ => settles_need fun property hp => ?_
    exact .right fun _ => .right fun _ => .right fun _ => .right fun _ =>
      hv property _ (.of_part? hp) (Node.isExpression_of_part? hproperty hp)

end Calls

section Operators

variable (hv : ∀ p c, n.Holds p.node → p.node.kind.isExpression = true → (visit p c).Settles env)
include hv

theorem settles_binary (context : Context) (hright : n.hasExpression .right = true) :
    (binary n visit context).Settles env := by
  refine settles_need fun left _ => settles_need fun right hp => ?_
  split
  · exact settles_phpCall hv _ _ (by simp)
  · exact .right fun _ => .right fun _ => .right fun _ =>
      settles_indent (hv right _ (.of_part? hp) (Node.isExpression_of_part? hright hp))

theorem settles_assignment (hright : n.hasExpression .right = true) :
    (assignment n visit).Settles env := by
  refine settles_need fun left _ => settles_need fun right hp => ?_
  exact .right fun _ => .right fun _ => .right fun _ =>
    hv right _ (.of_part? hp) (Node.isExpression_of_part? hright hp)

theorem settles_augmentedAssignment (hright : n.hasExpression .right = true) :
    (augmentedAssignment n visit).Settles env := by
  unfold augmentedAssignment
  dsimp only
  split
  · exact settles_unsupported _ _
  · refine settles_need fun left _ => settles_need fun right hp => ?_
    exact .right fun _ => .right fun _ => .right fun _ =>
      hv right _ (.of_part? hp) (Node.isExpression_of_part? hright hp)

theorem settles_branch {b : Part n} (hb : n.Holds b.node)
    (hkind : b.node.kind.isExpression = true) : (branch visit b).Settles env := by
  refine .right fun tokens => ?_
  dsimp only
  split
  · exact .right fun _ => .right fun _ => settles_emit (by decide)
  · exact Settles.left (hv b _ hb hkind) fun _ => retains_pure _

theorem settles_conditional (halternative : n.hasExpression .alternative = true) :
    (conditional n visit).Settles env := by
  refine settles_need fun test _ => .right fun _ => .right fun _ => .right fun _ => ?_
  refine settles_need fun consequence _ => .right fun _ => .right fun _ => ?_
  exact settles_need fun alternative hp =>
    settles_branch hv (.of_part? hp) (Node.isExpression_of_part? halternative hp)

theorem settles_unary (context : Context) (hargument : n.hasExpression .argument = true) :
    (unary n visit context).Settles env := by
  refine settles_need fun argument hp => ?_
  have hexpression := Node.isExpression_of_part? hargument hp
  have hvisit := hv argument {} (.of_part? hp) hexpression
  have hcall (function : String) :
      (phpCall visit context.place function [.source argument false]).Settles env := by
    refine settles_phpCall hv _ _ fun part wasAlone hsource => ?_
    obtain ⟨rfl, -⟩ : part = argument ∧ wasAlone = false := by simpa using hsource
    exact ⟨.of_part? hp, hexpression⟩
  split
  · exact hcall _
  · exact hcall _
  · split
    · exact settles_emit (by decide)
    · exact .right fun _ => .right fun _ => settles_emit (by decide)
  · refine .right fun _ => ?_
    split
    · exact .right fun _ => hvisit
    · exact hvisit

theorem settles_update (hargument : n.hasExpression .argument = true) :
    (update n visit).Settles env := by
  refine settles_need fun argument hp => ?_
  have hvisit := hv argument { place := .target } (.of_part? hp)
    (Node.isExpression_of_part? hargument hp)
  split
  · exact .right fun _ => hvisit
  · exact hvisit.left fun _ => retains_emit _

theorem settles_first (hfirst : n.startsExpression = true) :
    (do visit (← needFirst n) {} : EmitM Unit).Settles env :=
  settles_needFirst fun p hp => hv p _ (.of_head? hp) (Node.isExpression_of_head? hfirst hp)

theorem settles_yielded (hfirst : n.startsExpression = true) : (yielded n visit).Settles env := by
  refine .right fun _ => .right fun _ => ?_
  split
  · rename_i value _ hparts
    have hvalue : n.parts.head? = some value := by simp [hparts]
    exact hv value _ (.of_head? hvalue) (Node.isExpression_of_head? hfirst hvalue)
  · exact settles_emit (by decide)

theorem settles_awaited (hfirst : n.startsExpression = true) : (awaited n visit).Settles env :=
  .right fun _ => .right fun _ => settles_first hv hfirst

theorem settles_spread (context : Context) (hfirst : n.startsExpression = true) :
    (spread n visit context).Settles env := by
  unfold spread
  split
  · exact settles_fail _
  · exact .right fun _ => settles_first hv hfirst

theorem settles_sequence (hne : n.children ≠ [])
    (hall : n.children.all (·.kind.isExpression) = true) :
    (commaSeparated visit {} n.parts).Settles env := by
  refine settles_separated ?_ fun m hm => ?_
  · intro hnil
    apply hne
    rw [← Node.map_node_parts, List.map_eq_nil_iff]
    exact List.map_eq_nil_iff.mp hnil
  · obtain ⟨p, hp, rfl⟩ := List.mem_map.mp hm
    exact hv p _ (.of_mem_parts hp)
      (List.all_eq_true.mp hall p.node (Node.mem_children_of_mem_parts hp))

end Operators

section Delimited

theorem settles_template : (template n visit).Settles env :=
  .right fun _ => .right fun _ => settles_emit (by decide)

theorem settles_subscriptExpression : (subscriptExpression n visit).Settles env :=
  settles_need fun _ _ => settles_need fun _ _ => .right fun _ =>
    settles_block (by decide) (by decide)

theorem settles_functionNode (header : String) (form : FunctionForm) :
    (functionNode n visit header form).Settles env :=
  settles_need fun _ _ => Settles.left settles_inFunction fun _ => retains_pure _

theorem settles_objectLiteral : (objectLiteral n visit).Settles env := by
  refine .right fun options => ?_
  obtain ⟨c, hc⟩ := List.exists_mem_of_ne_nil _ (hard_arrayClose options)
  obtain ⟨hmem, hhard⟩ := List.mem_filter.mp hc
  have hclose (front : String) : hard (front ++ options.arrayClose).toList ≠ [] :=
    hard_ne_nil (c := c) (by simp [hmem]) (by simpa using hhard)
  split
  · exact settles_block (hclose " ") (hard_arrayClose options)
  · exact settles_emit (hclose _)

end Delimited

/-- The rule for an expression ends in code, if it does for the operands. -/
theorem settles_rule {rule : Rule} (hn : n.LastWords) (hkind : n.kind.isExpression = true)
    (hrule : rule? n.kind = some rule)
    (hv : ∀ p c, n.Holds p.node → p.node.kind.isExpression = true → (visit p c).Settles env)
    (context : Context) : (rule n visit context).Settles env := by
  have hself := hn.self
  -- One case for each kind of expression; the other kinds fall away with `hkind`.
  cases hk : n.kind
  all_goals rw [hk] at hrule; cases hrule
  all_goals simp only [Kind.isExpression, hk, Bool.false_eq_true] at hkind
  all_goals simp only [Node.hasLastWord, hk] at hself
  case identifier => exact settles_identifier context (of_decide_eq_true hself)
  case propertyIdentifier | privatePropertyIdentifier | trueValue | falseValue | nullValue =>
    exact settles_emit (of_decide_eq_true hself)
  case thisValue | superValue | undefinedValue => exact settles_emit (by decide)
  case number => exact settles_emitChars (of_decide_eq_true hself)
  case string => exact settles_stringText n n.text
  case regex => exact settles_regexLiteral
  case templateString => exact settles_template
  case binaryExpression => exact settles_binary hv context hself
  case assignmentExpression => exact settles_assignment hv hself
  case augmentedAssignment => exact settles_augmentedAssignment hv hself
  case ternaryExpression => exact settles_conditional hv hself
  case unaryExpression => exact settles_unary hv context hself
  case updateExpression => exact settles_update hv hself
  case sequenceExpression =>
    rw [Bool.and_eq_true, decide_eq_true_eq] at hself
    exact settles_sequence hv hself.1 hself.2
  case yieldExpression => exact settles_yielded hv hself
  case awaitExpression => exact settles_awaited hv hself
  case callExpression => exact settles_call hv hn context (Bool.and_eq_true_iff.mp hself).2
  case newExpression => exact settles_construction hv context (Bool.and_eq_true_iff.mp hself).2
  case arguments => exact settles_argumentList _
  case memberExpression =>
    exact settles_member hv hn context hk (Bool.and_eq_true_iff.mp hself).2
  case subscriptExpression => exact settles_subscriptExpression
  case function | functionExpression | generatorFunction | arrowFunction =>
    exact settles_functionNode _ _
  case object => exact settles_objectLiteral
  case array => exact settles_arrayBlock _
  case spreadElement => exact settles_spread hv context hself

end Emit

/-- An expression ends in code. -/
theorem settles_emitNode {env : EmitEnv} {n : Node} (hn : n.LastWords)
    (hkind : n.kind.isExpression = true) (context : Context) :
    (emitNode n context).Settles env := by
  induction hw : n.weight using Nat.strongRecOn generalizing n context with
  | ind w ih =>
    subst hw
    rw [emitNode]
    split
    · exact settles_fail _
    · rename_i rule hrule
      refine settles_around (Emit.settles_rule hn hkind hrule (fun p c hp hk => ?_) context)
      exact ih p.node.weight p.smaller (hn.held hp) hk c rfl

end EcmaPhp
