import EcmaPhp.Emit.Rules
import EcmaPhp.Proofs.Script.References

/-! Every name that is emitted as a variable is one that the emission has referred to. -/
namespace EcmaPhp
open Script EmitM

namespace Script

variable {h : Bool} {α β : Type}

@[simp]
theorem referring_pure (a : α) : (Pure.pure a : Script h α).Referring := trivial

@[simp]
theorem referring_fail (failure : Failure) : (EmitM.fail failure : EmitM α).Referring := trivial

@[simp]
theorem referring_unsupported (n : Node) (reason : String) :
    (EmitM.unsupported n reason : EmitM α).Referring := trivial

@[simp]
theorem referring_act (x : Action) : (EmitM.act x : Script h Unit).Referring := trivial

@[simp]
theorem referring_edit (e : Edit) : (EmitM.edit e : Script h Unit).Referring := trivial

@[simp]
theorem referring_emit (text : String) : (EmitM.emit text : Script h Unit).Referring := trivial

@[simp]
theorem referring_emitChars (text : List Char) : (EmitM.emitChars text : Script h Unit).Referring :=
  trivial

@[simp]
theorem referring_ensureTerminator : (EmitM.ensureTerminator : Script h Unit).Referring := trivial

@[simp]
theorem referring_note (e : Event) : (EmitM.note e).Referring := trivial

@[simp]
theorem referring_register (n : Node) : (EmitM.register n).Referring := trivial

@[simp]
theorem referring_ask (q : Query α) : (EmitM.ask q : Script h α).Referring := fun _ => trivial

@[simp]
theorem referring_getScopes : EmitM.getScopes.Referring := fun _ => trivial

@[simp]
theorem referring_getOptions : EmitM.getOptions.Referring := fun _ => trivial

@[simp]
theorem referring_getTokens : (EmitM.getTokens : Script h TokenIndex).Referring := fun _ => trivial

@[simp]
theorem referring_inProgramScope : EmitM.inProgramScope.Referring := fun _ => trivial

@[simp]
theorem referring_resolve (n : Node) : (EmitM.resolve n).Referring := fun _ => trivial

@[simp]
theorem referring_need (n : Node) (f : Field) : (EmitM.need n f).Referring := by
  rw [EmitM.need]
  split <;> trivial

@[simp]
theorem referring_needOf {n : Node} (p : Part n) (f : Field) : (EmitM.needOf p f).Referring := by
  rw [EmitM.needOf]
  split <;> trivial

@[simp]
theorem referring_needFirst (n : Node) : (EmitM.needFirst n).Referring := by
  rw [EmitM.needFirst]
  split <;> trivial

@[simp]
theorem referring_ite (c : Prop) [Decidable c] (m m' : Script h α) :
    (if c then m else m').Referring ↔ (c → m.Referring) ∧ (¬ c → m'.Referring) := by
  split <;> simp_all

@[simp]
theorem referring_within (f : Frame) (m : Script h α) :
    (EmitM.within f m).Referring ↔ m.RefersIn f ∧ m.Referring :=
  ⟨fun hm => ⟨hm.1, hm.2.1⟩, fun hm => ⟨hm.1, hm.2, fun _ => trivial⟩⟩

theorem referring_around {n : Node} (parens : Parens) {m : Script h Unit}
    (hname : n.isName = true → m.RefersFirst n) (hm : m.Referring) :
    (EmitM.around n parens m).Referring :=
  fun _ => ⟨hname, hm, fun _ => trivial⟩

@[simp]
theorem referring_inScope (kind : ScopeKind) (m : EmitM Unit) :
    (EmitM.inScope kind m).Referring ↔ m.Referring := by
  simp [EmitM.inScope, RefersIn]

@[simp]
theorem referring_inFunction (shape : FunctionShape) (params body : EmitM Unit) :
    (EmitM.inFunction shape params body).Referring ↔ params.Referring ∧ body.Referring :=
  ⟨fun hm => ⟨hm.1, hm.2.1⟩, fun hm => ⟨hm.1, hm.2, fun _ => trivial⟩⟩

@[simp]
theorem referring_head (m : Script true α) :
    (EmitM.inHead m : Script h α).Referring ↔ m.Referring :=
  ⟨fun hm => hm.1, fun hm => ⟨hm, fun _ => trivial⟩⟩

@[simp]
theorem referring_liftM (m : EmitM α) (hm : m.Referring) : (liftM m : Script true α).Referring :=
  hm.inHead

@[simp]
theorem referring_separate : EmitM.separate.Referring := trivial

@[simp]
theorem referring_forM {γ : Type} (xs : List γ) (f : γ → Script h PUnit)
    (hf : ∀ x ∈ xs, (f x).Referring) : (forM xs f).Referring := by
  induction xs with
  | nil => trivial
  | cons x rest ih =>
    rw [List.forM_cons, referring_bind]
    exact ⟨hf x (by simp), fun _ _ => ih fun y hy => hf y (by simp [hy])⟩

@[simp]
theorem referring_mapM {γ δ : Type} (xs : List γ) (f : γ → Script h δ)
    (hf : ∀ x ∈ xs, (f x).Referring) : (xs.mapM f).Referring := by
  have hloop (acc : List δ) : (List.mapM.loop f xs acc).Referring := by
    induction xs generalizing acc with
    | nil => trivial
    | cons x rest ih =>
      rw [List.mapM.loop, referring_bind]
      exact ⟨hf x (by simp), fun y _ => ih (fun z hz => hf z (by simp [hz])) (y :: acc)⟩
  exact hloop []

end Script

namespace Emit

section Layout

variable {n : Node} {visit : Visit n}

@[simp]
theorem referring_separated (separator : String) (steps : List (EmitM Unit))
    (hsteps : ∀ m ∈ steps, m.Referring) : (separated separator steps).Referring := by
  induction steps with
  | nil => trivial
  | cons m rest ih =>
    have hm := hsteps m (by simp)
    have hrest := ih fun m' hm' => hsteps m' (by simp [hm'])
    cases rest with
    | nil => exact hm
    | cons m' rest' => simp [separated, hm, hrest]

@[simp]
theorem referring_indented (body : EmitM Unit) : (indented body).Referring ↔ body.Referring := by
  simp [indented, RefersIn]

@[simp]
theorem referring_block (opening closing : String) (body : EmitM Unit) :
    (block opening body closing).Referring ↔ body.Referring := by
  simp [block, RefersIn]

@[simp]
theorem referring_padded (opening closing : String) (body : EmitM Unit) (hbody : body.Referring) :
    (padded opening body closing).Referring := by
  simp [padded, RefersIn, hbody]

@[simp]
theorem referring_hoist (statement : Node) : (hoist statement).Referring := by
  rw [hoist]
  split
  · rename_i declaration _
    cases declaration.child? .name <;> simp
  · trivial

variable (hv : ∀ p c, (visit p c).Referring)
include hv

@[simp]
theorem referring_commaSeparated (context : Context) (parts : List (Part n)) :
    (commaSeparated visit context parts).Referring := by
  refine referring_separated _ _ fun m hm => ?_
  obtain ⟨p, -, rfl⟩ := List.mem_map.mp hm
  exact hv p context

@[simp]
theorem referring_bracedBody (body : Part n) : (bracedBody visit body).Referring := by
  simp [bracedBody, hv]

@[simp]
theorem referring_condition (test : Part n) : (condition visit test).Referring := by
  simp [condition, hv]

@[simp]
theorem referring_statements (parts : List (Part n)) : (statements visit parts).Referring := by
  simp [statements, hv]

end Layout

section Names

theorem mem_of_constant? {scopes : Scopes} {n : Node} {constant : String}
    (h : Builtin.constant? scopes n = some constant) :
    (n.text, constant) ∈ Builtin.globalConstants := by
  rw [Builtin.constant?] at h
  split at h
  · obtain ⟨before, after, hlookup, -⟩ := List.lookup_eq_some_iff.mp h
    simp [hlookup]
  · cases h

theorem constant?_plain {scopes : Scopes} {n : Node} {constant : String}
    (h : Builtin.constant? scopes n = some constant) : '$' ∉ constant.toList := by
  have hconstants : ∀ p ∈ Builtin.globalConstants, '$' ∉ p.2.toList := by decide
  exact hconstants _ (mem_of_constant? h)

/-- An identifier is written as a variable only after it was looked up. -/
theorem refersFirst_identifier (n : Node) (context : Context) :
    (identifier n context).RefersFirst n := by
  have hplain {text : String} (h : '$' ∉ text.toList) : (emit text : EmitM Unit).RefersFirst n :=
    ⟨fun hs => h (hs.subset (List.mem_cons_self ..)), trivial⟩
  rw [identifier]
  split
  · refine ⟨fun hs => ?_, trivial⟩
    have hlength := hs.length_le
    simp only [List.length_cons] at hlength
    omega
  · split
    · exact hplain (by decide)
    · intro scopes
      simp only [Pure.pure, Script.bind]
      cases hc : Builtin.constant? scopes n with
      | some constant => exact hplain (constant?_plain hc)
      | none => exact fun _ => rfl

@[simp]
theorem referring_identifier (n : Node) (context : Context) : (identifier n context).Referring := by
  simp only [identifier, referring_ite, referring_emit, implies_true, true_and, referring_bind,
    referring_getScopes]
  intro _ _ scopes _
  split
  · simp
  · simp only [referring_bind, referring_resolve, true_and]
    intro definition _
    split <;> simp

theorem refersFirst_shorthandProperty (n : Node) : (shorthandProperty n).RefersFirst n :=
  fun _ => rfl

@[simp]
theorem referring_shorthandProperty (n : Node) : (shorthandProperty n).Referring := by
  simp [shorthandProperty]

variable {n : Node} {visit : Visit n} (hv : ∀ p c, (visit p c).Referring)
include hv

/-- The key of a pair is a name of its own only if it is visited. -/
@[simp]
theorem referring_key (k : Part n) : (key visit k).Referring := by
  rw [key]
  split
  · rename_i hkind
    refine referring_around _ (fun hname => ?_) (by simp)
    simp only [Node.isName] at hname
    grind
  · exact hv k {}

end Names

section Expressions

@[simp]
theorem referring_refuseTemplate (m : Node) : (refuseTemplate m).Referring := by
  simp [refuseTemplate]

@[simp]
theorem referring_registerTarget (target : Node) : (registerTarget target).Referring := by
  simp only [registerTarget, referring_ite, referring_register, implies_true, true_and]
  intro _
  split
  · trivial
  · simp only [referring_bind, referring_getScopes, referring_ite, referring_register,
      referring_pure, implies_true, and_true]

@[simp]
theorem referring_stringText (n : Node) (text : String) : (stringText n text).Referring := by
  rw [stringText]
  split <;> simp

variable {n : Node} {visit : Visit n} (hv : ∀ p c, (visit p c).Referring)
include hv

@[simp]
theorem referring_substitution (expression : Part n) :
    (substitution visit expression).Referring := by
  simp [substitution, hv]

@[simp]
theorem referring_templateBody (start : Nat) (parts : List (Part n)) :
    (templateBody n visit start parts).Referring := by
  induction parts generalizing start with
  | nil => simp [templateBody, templateChunk]
  | cons s rest ih =>
    simp only [templateBody, templateChunk]
    split <;> simp [hv, ih]

@[simp]
theorem referring_template : (template n visit).Referring := by
  simp [template, hv]

@[simp]
theorem referring_objectLiteral : (objectLiteral n visit).Referring := by
  simp [objectLiteral, hv]

@[simp]
theorem referring_operand (alone : Bool) (o : Operand n) : (operand visit alone o).Referring := by
  cases o with
  | source part wasAlone => exact hv _ _
  | literal kind text => cases kind <;> simp [operand]
  | emptyArray => simp [operand, arrayBlock]
  | method object name => simp [operand, arrayBlock, hv]
  | element container index => simp [operand, subscript, hv]

@[simp]
theorem referring_phpCall (place : Place) (function : String) (operands : List (Operand n)) :
    (phpCall visit place function operands).Referring := by
  have hoperands : ∀ m ∈ operands.map (operand visit (operands.length = 1)), m.Referring := by
    intro m hm
    obtain ⟨o, -, rfl⟩ := List.mem_map.mp hm
    exact referring_operand hv _ o
  simp only [phpCall]
  split
  · simp_all
  · simp [argumentList, referring_separated _ _ hoperands]

@[simp]
theorem referring_replacement (place : Place) (r : Replacement n) :
    (replacement visit place r).Referring := by
  cases r <;> simp [replacement, hv]

@[simp]
theorem referring_inlineCall (place : Place) (callee : Part n) :
    (inlineCall n visit place callee).Referring := by
  unfold inlineCall
  split <;> simp [hv]

@[simp]
theorem referring_plainCall (place : Place) (callee : Part n) :
    (plainCall n visit place callee).Referring := by
  simp only [plainCall, referring_bind, referring_getScopes, true_and]
  intro scopes _
  split
  · simp [hv]
  · have hsuper (h : callee.node.kind = .superValue) :
        (around callee.node .asSource (emit "parent::__construct") : EmitM Unit).Referring := by
      refine referring_around _ (fun hname => ?_) (by simp)
      simp [Node.isName, h] at hname
    cases n.part? .arguments with
    | some args => simp +contextual [hv, hsuper]
    | none => simp +contextual [hv, hsuper]

@[simp]
theorem referring_call (context : Context) : (call n visit context).Referring := by
  simp only [call, referring_bind, referring_refuseTemplate, referring_need, referring_ite,
    referring_getScopes, true_and]
  intro _ _ callee _
  refine ⟨fun _ => referring_inlineCall hv _ _, fun _ scopes _ => ?_⟩
  split
  · rename_i r event _
    cases event <;> simp [hv]
  · exact referring_plainCall hv _ _

@[simp]
theorem referring_construction (context : Context) : (construction n visit context).Referring := by
  simp [construction, hv]

@[simp]
theorem referring_member (context : Context) : (member n visit context).Referring := by
  simp only [member, referring_bind, referring_getScopes, true_and]
  intro scopes _
  split
  · rename_i r event _
    cases event <;> simp [hv]
  · simp [hv, accessor]

@[simp]
theorem referring_subscript (object index : Part n) : (subscript visit object index).Referring := by
  simp [subscript, hv]

@[simp]
theorem referring_binary (context : Context) : (binary n visit context).Referring := by
  simp [binary, hv]

@[simp]
theorem referring_branch (b : Part n) : (branch visit b).Referring := by
  simp [branch, hv]

@[simp]
theorem referring_unary (context : Context) : (unary n visit context).Referring := by
  simp only [unary, referring_bind, referring_need, true_and]
  intro argument _
  split <;> simp [hv]

@[simp]
theorem referring_yielded : (yielded n visit).Referring := by
  unfold yielded
  split <;> simp [suspension, hv]

end Expressions

section Functions

variable {n : Node}

@[simp]
theorem referring_registerParameter (param : Node) : (registerParameter param).Referring := by
  simp [registerParameter]

@[simp]
theorem referring_superclass (heritage : Node) : (superclass heritage).Referring := by
  unfold superclass
  split <;> simp

@[simp]
theorem referring_fieldKey (field : Node) : (fieldKey field).Referring := by
  unfold fieldKey
  split <;> simp

@[simp]
theorem referring_promoteFields (scope : Scope) (held : List (String × List Comment)) :
    (promoteFields scope held).Referring := by
  simp [promoteFields, knownFields]

@[simp]
theorem referring_accessorParameter (accessor : Part n) :
    (accessorParameter accessor).Referring := by
  unfold accessorParameter
  split <;> simp

@[simp]
theorem referring_modifiers (m : Node) : (modifiers m).Referring := by
  simp [modifiers]

variable {visit : Visit n} (hv : ∀ p c, (visit p c).Referring)
include hv

@[simp]
theorem referring_parameters (params : Option (Part n)) : (parameters visit params).Referring := by
  cases params with
  | none => trivial
  | some params => simp [parameters, hv]

@[simp]
theorem referring_function (header : String) (form : FunctionForm) (params : Option (Part n))
    (body : Part n) : (function visit header form params body).Referring := by
  simp only [function, referring_inFunction, referring_bind, referring_emit, referring_edit,
    referring_ite, referring_indented, referring_parameters hv, referring_pure, hv, implies_true,
    and_true]

@[simp]
theorem referring_functionNode (header : String) (form : FunctionForm) :
    (functionNode n visit header form).Referring := by
  simp [functionNode, hv]

@[simp]
theorem referring_classDeclaration : (classDeclaration n visit).Referring := by
  simp [classDeclaration, hv, RefersIn]

@[simp]
theorem referring_accessorBody (accessor : Part n) : (accessorBody visit accessor).Referring := by
  simp only [accessorBody, referring_bind, referring_accessorParameter, referring_needOf, true_and]
  intro _ _ body _
  split <;> simp [hv]

@[simp]
theorem referring_accessorFunction (signature : Signature) (accessors : List (Part n)) :
    (accessorFunction visit signature accessors).Referring := by
  cases accessors with
  | nil => trivial
  | cons first rest => simp [accessorFunction, hv]

@[simp]
theorem referring_classMember (m : Part n) : (classMember visit m).Referring := by
  simp [classMember, hv, RefersIn]

@[simp]
theorem referring_classBody : (classBody n visit).Referring := by
  simp [classBody, hv, RefersIn]

@[simp]
theorem referring_method (context : Context) : (method n visit context).Referring := by
  simp [method, constructorMethod, knownFields, hv]

@[simp]
theorem referring_fieldDefinition : (fieldDefinition n visit).Referring := by
  cases hvalue : n.part? .value with
  | none => simp [fieldDefinition, hvalue]
  | some value => simp [fieldDefinition, hvalue, hv]

end Functions

section Statements

@[simp]
theorem referring_useLines (lines : List String) : (useLines lines).Referring := by
  cases lines <;> simp [useLines]

@[simp]
theorem referring_patternLine (property : Node) : (patternLine property).Referring := by
  simp only [patternLine, referring_bind, referring_getOptions, true_and]
  intro options _
  split
  · simp
  · simp
  · cases property.child? .key <;> simp
  · simp

@[simp]
theorem referring_moduleLines (declarator : Node) : (moduleLines declarator).Referring := by
  unfold moduleLines
  split <;> simp

/-- No declaration is a name. -/
theorem not_isName_of_isDeclaration {n : Node} (h : n.kind.isDeclaration = true) :
    n.isName = false := by
  unfold Kind.isDeclaration at h
  split at h
  · rename_i hkind
    simp [Node.isName, hkind]
  · rename_i hkind
    simp [Node.isName, hkind]
  · cases h

theorem referring_moduleDeclaration (statement : Node) (h : statement.declaresModules = true) :
    (moduleDeclaration statement).Referring := by
  refine referring_around _ (fun hname => ?_) (by simp)
  simp only [Node.declaresModules, Bool.and_eq_true] at h
  rw [not_isName_of_isDeclaration h.1.1] at hname
  cases hname

@[simp]
theorem referring_moduleHead {n : Node} (parts : List (Part n)) : (moduleHead parts).Referring := by
  induction parts with
  | nil => trivial
  | cons p rest ih =>
    simp only [moduleHead, referring_ite, referring_bind, referring_edit, referring_pure, ih]
    simp only [implies_true, and_true, true_and]
    exact fun _ hmodules => referring_moduleDeclaration p.node hmodules

@[simp]
theorem referring_specifierLine (module : String) (specifier : Node) :
    (specifierLine module specifier).Referring := by
  unfold specifierLine
  split <;> simp

@[simp]
theorem referring_importLines (module : String) (part : Node) :
    (importLines module part).Referring := by
  unfold importLines
  split
  · simp
  · split <;> simp
  · simp
  · simp

@[simp]
theorem referring_importStatement (n : Node) : (importStatement n).Referring := by
  unfold importStatement
  split <;> simp

@[simp]
theorem referring_jump (n : Node) (keyword : String) : (jump n keyword).Referring := by
  cases hlabel : n.child? .label <;> simp [jump, hlabel]

variable {n : Node} {visit : Visit n} (hv : ∀ p c, (visit p c).Referring)
include hv

@[simp]
theorem referring_declarator (context : Context) : (declarator n visit context).Referring := by
  cases hvalue : n.part? .value <;> simp [declarator, hvalue, hv]

@[simp]
theorem referring_declaration : (declaration n visit).Referring := by
  refine referring_separated _ _ fun m hm => ?_
  obtain ⟨p, -, rfl⟩ := List.mem_map.mp hm
  exact hv p _

@[simp]
theorem referring_program : (program n visit).Referring := by
  unfold program
  simp only [referring_inScope, referring_bind, referring_getOptions, true_and]
  intro options _
  split <;> simp [hv]

@[simp]
theorem referring_expressionStatement : (expressionStatement n visit).Referring := by
  unfold expressionStatement
  split <;> simp [hv]

@[simp]
theorem referring_returnStatement : (returnStatement n visit).Referring := by
  cases hparts : n.parts <;> simp [returnStatement, hparts, hv]

@[simp]
theorem referring_ifStatement : (ifStatement n visit).Referring := by
  cases helse : n.part? .alternative <;> simp [ifStatement, helse, hv]

@[simp]
theorem referring_elseClause : (elseClause n visit).Referring := by
  simp [elseClause, hv]

theorem referring_forDeclaration {d : Part n} (hd : d.node.kind.isDeclaration = true) :
    (forDeclaration visit d).Referring := by
  refine referring_around _ (fun hname => ?_) ?_
  · rw [not_isName_of_isDeclaration hd] at hname
    cases hname
  · split
    · trivial
    · simp [hv]

@[simp]
theorem referring_forClause (clause? : Option (Part n)) : (forClause visit clause?).Referring := by
  unfold forClause
  split <;> simp [hv]

@[simp]
theorem referring_forHead : (forHead n visit).Referring := by
  unfold forHead
  split
  · rename_i d hd
    simp [hv, referring_forDeclaration hv (Option.filter_eq_some_iff.mp hd).2]
  · simp [hv]

@[simp]
theorem referring_forStatement : (forStatement n visit).Referring := by
  simp [forStatement, hv]

@[simp]
theorem referring_forInStatement : (forInStatement n visit).Referring := by
  simp [forInStatement, hv]

@[simp]
theorem referring_switchCase : (switchCase n visit).Referring := by
  cases hvalue : n.part? .value <;> cases hbody : n.partsIn .body <;>
    simp [switchCase, hvalue, hbody, hv]

@[simp]
theorem referring_tryStatement : (tryStatement n visit).Referring := by
  cases hhandler : n.part? .handler <;> cases hfinalizer : n.part? .finalizer <;>
    simp [tryStatement, hhandler, hfinalizer, hv]

@[simp]
theorem referring_catchClause : (catchClause n visit).Referring := by
  cases hparam : n.part? .parameter <;> simp [catchClause, catchParameter, hparam, hv]

@[simp]
theorem referring_exportStatement : (exportStatement n visit).Referring := by
  unfold exportStatement
  split <;> simp [hv]

end Statements

end Emit

open Emit in
/-- The script of each rule refers to the names in it first. -/
theorem referring_rule {kind : Kind} {rule : Rule} (hrule : rule? kind = some rule) {n : Node}
    {visit : Visit n} (hv : ∀ p c, (visit p c).Referring) (context : Context) :
    (rule n visit context).Referring := by
  unfold rule? at hrule
  split at hrule <;> cases hrule
  all_goals simp [hv, statementBlock, objectPattern, arrayPattern, pairPattern, defaultValue,
    spread, propertyName, computedName, numberLiteral, stringLiteral, regexLiteral, assignment,
    augmentedAssignment, conditional, update, awaited, suspension, arguments, argumentList,
    subscriptExpression, functionDeclaration, functionExpression, pair, arrayLiteral, arrayBlock,
    hole, whileStatement, doStatement, switchStatement, switchBody, labeledStatement,
    finallyClause, throwStatement]

open Emit in
/-- The rule of a name refers to it first. -/
theorem refersFirst_rule {n : Node} {rule : Rule} (hname : n.isName = true)
    (hrule : rule? n.kind = some rule) (visit : Visit n) (context : Context) :
    (rule n visit context).RefersFirst n := by
  simp only [Node.isName, Bool.or_eq_true, decide_eq_true_eq] at hname
  rcases hname with (hkind | hkind) | hkind
  · rw [hkind] at hrule
    cases hrule
    exact refersFirst_identifier n context
  · rw [hkind] at hrule
    cases hrule
    exact refersFirst_shorthandProperty n
  · rw [hkind] at hrule
    cases hrule
    exact refersFirst_shorthandProperty n

theorem referring_emitNode (n : Node) (context : Context) : (emitNode n context).Referring := by
  -- The parts of a node weigh less than the node.
  induction hw : n.weight using Nat.strongRecOn generalizing n context with
  | ind w ih =>
    rw [emitNode]
    split
    · trivial
    · rename_i rule hrule
      refine referring_around _ (fun hname => refersFirst_rule hname hrule _ context) ?_
      exact referring_rule hrule (fun p c => ih _ (hw ▸ p.smaller) p.node c rfl) context

theorem referring_emitProgram (root : Node) : (emitProgram root).Referring := by
  simp only [emitProgram, referring_bind, referring_emit, referring_getOptions, true_and]
  intro _ _ options _
  split <;> simp [referring_emitNode]

end EcmaPhp
