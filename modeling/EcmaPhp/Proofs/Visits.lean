import EcmaPhp.Proofs.Script.Frames
import EcmaPhp.Proofs.Soundness.Statement

/-! Which nodes the rule for a node emits: its children, those of lists among its children, and in
a function also the statements of accessors and the body of a constructor. -/
namespace EcmaPhp
open Script EmitM

/-- A kind whose nodes are functions. -/
def Kind.isFunction (kind : Kind) : Bool :=
  kind.isFunctionDeclaration || kind.isFunctionExpression || kind = .methodDefinition

namespace Node

/-- A node that only holds others for its parent: parameters or arguments, a place in a template, a
member that names a method, and a clause or a declaration in the head of a loop. -/
def isHolder (n : Node) : Bool :=
  n.field = some .arguments || n.field = some .parameters || n.field = some .parameter ||
    n.kind = .templateSubstitution || n.kind = .expressionStatement ||
    n.kind = .memberExpression || n.kind.isDeclaration

/-- A node below another one, with nothing but holders between the two. -/
inductive Holds (n : Node) : Node → Prop where
  | child {m : Node} (h : m ∈ n.children) : Holds n m
  | through {list m : Node} (hlist : Holds n list) (hholder : list.isHolder = true)
      (h : m ∈ list.children) : Holds n m

/-- What the rule for a node emits, by whether that is in a function. -/
inductive Visits (n : Node) : (inFunction : Bool) → Node → Prop where
  | inPlace {m : Node} (hkind : n.kind.isFunction = false) (h : n.Holds m) : Visits n false m
  | ofFunction {m : Node} (hkind : n.kind.isFunction = true) (h : n.Holds m) : Visits n true m
  | ofAccessor {a body m : Node} (ha : a ∈ n.children) (haccessor : a.accessor?.isSome = true)
      (hbody : a.child? .body = some body) (h : m ∈ body.children) : Visits n true m
  | ofConstructor {body : Node} (known : List String) (hkind : n.kind = .methodDefinition)
      (hbody : n.child? .body = some body) :
      Visits n true { body with children := (takeFieldComments known body.children).1 }

variable {n m : Node} {p q : Part n} {f : Field}

theorem field_of_child? (h : n.child? f = some m) : m.field = some f := by
  simpa using List.find?_some h

theorem Holds.of_child? (h : n.child? f = some m) : n.Holds m :=
  .child (List.mem_of_find?_eq_some h)

theorem Holds.child? {list : Node} (hlist : n.Holds list) (hholder : list.isHolder = true)
    (h : list.child? f = some m) : n.Holds m :=
  hlist.through hholder (List.mem_of_find?_eq_some h)

theorem Holds.of_part? (h : n.part? f = some p) : n.Holds p.node := .of_child? (child?_of_part? h)

theorem Holds.of_mem_parts (h : p ∈ n.parts) : n.Holds p.node :=
  .child (mem_children_of_mem_parts h)

theorem Holds.of_head? (h : n.parts.head? = some p) : n.Holds p.node :=
  .of_mem_parts (List.mem_of_mem_head? h)

theorem Holds.of_mem_partsIn (h : p ∈ n.partsIn f) : n.Holds p.node :=
  .of_mem_parts (List.mem_of_mem_filter h)

theorem Holds.of_mem_partsOf {kind : Kind} (h : p ∈ n.partsOf kind) : n.Holds p.node :=
  .of_mem_parts (List.mem_of_mem_filter h)

theorem Holds.parts (hp : n.Holds p.node) (hholder : p.node.isHolder = true) :
    ∀ q ∈ p.parts, n.Holds q.node :=
  fun _ hq => hp.through hholder (Part.mem_children_of_mem_parts hq)

section Operands

theorem isHolder_of_child? (h : n.child? f = some m)
    (hf : f = .arguments ∨ f = .parameters ∨ f = .parameter) : m.isHolder = true := by
  rcases hf with rfl | rfl | rfl <;> simp [isHolder, field_of_child? h]

theorem isHolder_of_part? (h : n.part? f = some p)
    (hf : f = .arguments ∨ f = .parameters ∨ f = .parameter) : p.node.isHolder = true :=
  isHolder_of_child? (child?_of_part? h) hf

theorem isHolder_of_member (h : n.kind = .memberExpression) : n.isHolder = true := by
  simp [isHolder, h]

theorem holds_of_mem_callArguments (h : m ∈ n.callArguments) : n.Holds m := by
  unfold callArguments at h
  cases harguments : n.child? .arguments with
  | none => simp [harguments] at h
  | some list =>
    rw [harguments] at h
    exact (Holds.of_child? harguments).through (isHolder_of_child? harguments (.inl rfl)) h

theorem holds_of_origin? (h : n.origin? = some m) : n.Holds m := by
  unfold origin? at h
  split at h
  · cases hmember : n.calledMember? with
    | none =>
      rw [hmember] at h
      exact .of_child? h
    | some member =>
      obtain ⟨hfunction, hkind⟩ := Option.filter_eq_some_iff.mp hmember
      rw [hmember] at h
      exact (Holds.of_child? hfunction).child? (isHolder_of_member (of_decide_eq_true hkind)) h
  · exact .of_child? h
  · cases h

theorem Holds.holder (h : n.Holds m) : n.Holds m.holder := by
  unfold Node.holder
  split
  · rename_i hkind hobject _
    split
    · exact h
    · exact h.child? (isHolder_of_member hkind) hobject
  · exact h

/-- The operands of a call or a member are below it, in its list of arguments or in the member that
names the method. -/
theorem holds_of_mem_operands (h : m ∈ n.operands) : n.Holds m := by
  unfold operands at h
  rcases List.mem_append.mp h with hfirst | hrest
  · rw [Option.mem_toList] at hfirst
    split at hfirst
    · obtain ⟨origin, horigin, rfl⟩ := Option.map_eq_some_iff.mp hfirst
      exact (holds_of_origin? horigin).holder
    · exact holds_of_origin? hfirst
  · split at hrest
    · exact holds_of_mem_callArguments hrest
    · cases hrest

end Operands

end Node

/-- A law that frames without other nodes in them obey, and declarations in the head of a loop. -/
structure FrameLaw.Grounded (law : FrameLaw) : Prop where
  lifts : law.Lifts
  bare (b : Bool) (n : Node) (m : EmitM Unit)
    (hkind : n.kind = .propertyIdentifier ∨ n.kind = .privatePropertyIdentifier ∨
      n.kind = .superValue ∨ n.kind.isDeclaration = true)
    (hm : m.Frames (fun _ _ _ _ _ => False) b) : law b n m
  declaration (b : Bool) (n : Node) (m : Script true Unit) (hkind : n.kind.isDeclaration = true)
    (hkeyword : m.keyword? = none) (hm : m.Frames law b) : law b n m

/-- What is emitted for a part is in a frame, or it fails. -/
def Visit.Framed {n : Node} (visit : Visit n) : Prop :=
  ∀ p c, (∃ parens m, visit p c = around p.node parens m) ∨ ∃ e, visit p c = EmitM.fail e

namespace Emit

variable {law : FrameLaw} {b : Bool} {n : Node} {visit : Visit n}

section Needs

variable {p q : Part n} {f : Field}

@[simp]
theorem gives_need : (need n f).Gives p ↔ n.Holds p.node ∧ n.part? f = some p := by
  rw [need]
  split <;> rename_i hpart
  · constructor
    · rintro rfl
      exact ⟨.of_part? hpart, hpart⟩
    · rintro ⟨-, heq⟩
      exact (Option.some.inj (hpart.symm.trans heq)).symm
  · simp [hpart, EmitM.fail, Gives]

@[simp]
theorem gives_needFirst : (needFirst n).Gives p ↔ n.Holds p.node ∧ n.parts.head? = some p := by
  rw [needFirst]
  split <;> rename_i hparts
  · constructor
    · rintro rfl
      exact ⟨.of_mem_parts (by simp [hparts]), by simp [hparts]⟩
    · rintro ⟨-, heq⟩
      rw [hparts, List.head?_cons] at heq
      exact (Option.some.inj heq).symm
  · simp [hparts, EmitM.fail, Gives]

@[simp]
theorem gives_needOf : (needOf p f).Gives q ↔ p.part? f = some q := by
  rw [needOf]
  split <;> rename_i hpart
  · rw [hpart, Option.some_inj, eq_comm]
    rfl
  · simp [hpart, EmitM.fail, Gives]

end Needs

section Layout

@[simp]
theorem frames_separated (separator : String) (steps : List (EmitM Unit))
    (hsteps : ∀ m ∈ steps, m.Frames law b) : (separated separator steps).Frames law b := by
  induction steps with
  | nil => trivial
  | cons m rest ih =>
    have hm := hsteps m (by simp)
    have hrest := ih fun m' hm' => hsteps m' (by simp [hm'])
    cases rest with
    | nil => exact hm
    | cons m' rest' => simp [separated, hm, hrest]

@[simp]
theorem frames_indented (body : EmitM Unit) :
    (indented body).Frames law b ↔ body.Frames law b :=
  frames_within _ _

@[simp]
theorem frames_block (opening closing : String) (body : EmitM Unit) :
    (block opening body closing).Frames law b ↔ body.Frames law b :=
  frames_within _ _

@[simp]
theorem frames_padded (opening closing : String) (body : EmitM Unit) :
    (padded opening body closing).Frames law b ↔ body.Frames law b :=
  frames_within _ _

@[simp]
theorem frames_hoist (statement : Node) : (hoist statement).Frames law b := by
  rw [hoist]
  split
  · rename_i declaration _
    cases declaration.child? .name <;> simp
  · trivial

variable (hv : ∀ p c, n.Holds p.node → (visit p c).Frames law b)
include hv

theorem frames_commaSeparated (context : Context) {parts : List (Part n)}
    (hparts : ∀ p ∈ parts, n.Holds p.node) :
    (commaSeparated visit context parts).Frames law b := by
  refine frames_separated _ _ fun m hm => ?_
  obtain ⟨p, hp, rfl⟩ := List.mem_map.mp hm
  exact hv p context (hparts p hp)

@[simp]
theorem frames_bracedBody {body : Part n} (h : n.Holds body.node) :
    (bracedBody visit body).Frames law b := by
  simp [bracedBody, hv _ _ h]

@[simp]
theorem frames_condition {test : Part n} (h : n.Holds test.node) :
    (condition visit test).Frames law b := by
  simp [condition, hv _ _ h]

theorem frames_statements {parts : List (Part n)} (hparts : ∀ p ∈ parts, n.Holds p.node) :
    (statements visit parts).Frames law b := by
  rw [statements, frames_bind]
  exact ⟨by simp, fun _ _ => frames_forM _ _ fun p hp => hv p {} (hparts p hp)⟩

end Layout

section Names

@[simp]
theorem frames_identifier (context : Context) : (identifier n context).Frames law b := by
  simp only [identifier, frames_ite, frames_emit, implies_true, true_and, frames_bind,
    frames_getScopes]
  intro _ _ scopes _
  split
  · simp
  · simp only [frames_bind, frames_resolve, true_and]
    intro definition _
    split <;> simp

@[simp]
theorem frames_shorthandProperty : (shorthandProperty n).Frames law b := by
  simp [shorthandProperty]

variable (hlaw : law.Grounded) (hv : ∀ p c, n.Holds p.node → (visit p c).Frames law b)
include hlaw hv

@[simp]
theorem frames_key {k : Part n} (h : n.Holds k.node) : (key visit k).Frames law b := by
  rw [key]
  split
  · rename_i hkind
    refine frames_around (hlaw.bare b k.node _ ?_ trivial)
    simp only [Bool.or_eq_true, decide_eq_true_eq] at hkind
    tauto
  · exact hv k {} h

end Names

section Expressions

@[simp]
theorem frames_refuseTemplate (m : Node) : (refuseTemplate m).Frames law b := by
  simp [refuseTemplate]

@[simp]
theorem frames_registerTarget (target : Node) : (registerTarget target).Frames law b := by
  simp only [registerTarget, frames_ite, frames_register, implies_true, true_and]
  intro _
  split
  · trivial
  · simp

@[simp]
theorem frames_stringText (m : Node) (text : String) : (stringText m text).Frames law b := by
  rw [stringText]
  split <;> simp

theorem holds_arguments :
    ∀ a ∈ ((n.part? .arguments).map Part.parts).getD [], n.Holds a.node := by
  cases harguments : n.part? .arguments with
  | none => simp
  | some list =>
    exact (Node.Holds.of_part? harguments).parts (Node.isHolder_of_part? harguments (.inl rfl))

variable (hv : ∀ p c, n.Holds p.node → (visit p c).Frames law b)
include hv

theorem frames_substitution {expression : Part n} (h : n.Holds expression.node) :
    (substitution visit expression).Frames law b := by
  simp [substitution, hv _ _ h]

theorem frames_templateBody (start : Nat) {parts : List (Part n)}
    (hparts : ∀ s ∈ parts, n.Holds s.node ∧ s.node.isHolder = true) :
    (templateBody n visit start parts).Frames law b := by
  induction parts generalizing start with
  | nil => simp [templateBody, templateChunk]
  | cons s rest ih =>
    obtain ⟨hs, hholder⟩ := hparts s (by simp)
    have hrest (start : Nat) := ih start fun s' hs' => hparts s' (by simp [hs'])
    simp only [templateBody, templateChunk]
    split
    · rename_i expression _ hexpression
      have hheld := hs.parts hholder expression (by simp [hexpression])
      simp [frames_substitution hv hheld, hrest]
    · simp [hrest]

theorem frames_template : (template n visit).Frames law b := by
  have hparts : ∀ s ∈ n.partsOf .templateSubstitution,
      n.Holds s.node ∧ s.node.isHolder = true := by
    intro s hs
    have hkind : s.node.kind = .templateSubstitution := by simpa using List.of_mem_filter hs
    exact ⟨.of_mem_partsOf hs, by simp [Node.isHolder, hkind]⟩
  simp [template, frames_templateBody hv _ hparts]

theorem frames_objectLiteral : (objectLiteral n visit).Frames law b := by
  simp [objectLiteral, frames_commaSeparated hv _ fun _ => Node.Holds.of_mem_parts]

theorem frames_operand (alone : Bool) {o : Operand n} (h : ∀ m ∈ o.sources, n.Holds m) :
    (operand visit alone o).Frames law b := by
  cases o with
  | source part wasAlone => exact hv _ _ (h _ (by simp [Operand.sources]))
  | literal kind text => cases kind <;> simp [operand]
  | emptyArray => simp [operand, arrayBlock]
  | method object name =>
    have hobject := h object.node (by simp [Operand.sources])
    simp [operand, arrayBlock, hv _ _ hobject]
  | element container index =>
    have hcontainer := h container.node (by simp [Operand.sources])
    have hindex := h index.node (by simp [Operand.sources])
    simp [operand, subscript, hv _ _ hcontainer, hv _ _ hindex]

theorem frames_phpCall (place : Place) (function : String) (operands : List (Operand n))
    (h : ∀ m ∈ operands.flatMap Operand.sources, n.Holds m) :
    (phpCall visit place function operands).Frames law b := by
  have hoperands : ∀ m ∈ operands.map (operand visit (operands.length = 1)), m.Frames law b := by
    intro m hm
    obtain ⟨o, ho, rfl⟩ := List.mem_map.mp hm
    exact frames_operand hv _ fun m hm => h m (List.mem_flatMap_of_mem ho hm)
  simp only [phpCall]
  split
  · simp_all
  · simp [argumentList, frames_separated _ _ hoperands]

theorem frames_replacement (place : Place) {r : Replacement n} (h : ∀ m ∈ r.sources, n.Holds m) :
    (replacement visit place r).Frames law b := by
  cases r with
  | call function operands => exact frames_phpCall hv place function operands h
  | constant name => trivial

theorem frames_inlineCall (place : Place) {callee : Part n} (h : n.Holds callee.node) :
    (inlineCall n visit place callee).Frames law b := by
  unfold inlineCall
  split
  · simp +contextual [hv, h]
  · simp only [frames_bind, frames_emit, hv _ _ h, true_and, implies_true, and_true]
    intro _ _ _ _
    refine frames_forM _ _ fun a ha => ?_
    simp [hv a _ (holds_arguments a ha)]

theorem frames_plainCall (hlaw : law.Grounded) (place : Place) {callee : Part n}
    (h : n.Holds callee.node) : (plainCall n visit place callee).Frames law b := by
  simp only [plainCall, frames_bind, frames_getScopes, true_and]
  intro scopes _
  split
  · rename_i list value _ hlist
    have hheld : ∀ a ∈ [list, value], n.Holds a.node := hlist ▸ holds_arguments
    have hl := hheld list (by simp)
    have hr := hheld value (by simp)
    simp [hv, hl, hr]
  · have hsuper (hkind : callee.node.kind = .superValue) :
        (around callee.node .asSource (emit "parent::__construct") : EmitM Unit).Frames law b :=
      frames_around (hlaw.bare b callee.node _ (.inr (.inr (.inl hkind))) trivial)
    cases harguments : n.part? .arguments with
    | some args => simp +contextual [hv, h, hsuper, Node.Holds.of_part? harguments]
    | none => simp +contextual [hv, h, hsuper]

theorem frames_call (hlaw : law.Grounded) (context : Context) :
    (call n visit context).Frames law b := by
  simp only [call, frames_bind, frames_refuseTemplate, frames_need, frames_ite, frames_getScopes,
    true_and, gives_need]
  rintro _ _ callee ⟨h, -⟩
  refine ⟨fun _ => frames_inlineCall hv _ h, fun _ scopes _ => ?_⟩
  split
  · rename_i r event hreplaced
    have hr := frames_replacement hv context.place fun m hm =>
      Node.holds_of_mem_operands ((Builtin.replacement?_keepsOperands hreplaced).subset hm)
    cases event <;> simp [hr]
  · exact frames_plainCall hv hlaw _ h

theorem frames_construction (hlaw : law.Grounded) (context : Context) :
    (construction n visit context).Frames law b := by
  simp only [construction, frames_bind, frames_need, frames_emit, frames_refuseTemplate, true_and,
    gives_need]
  rintro callee ⟨h, -⟩ _ _ _ _
  exact frames_plainCall hv hlaw _ h

theorem frames_member (context : Context) : (member n visit context).Frames law b := by
  simp only [member, frames_bind, frames_getScopes, true_and]
  intro scopes _
  split
  · rename_i r event hreplaced
    have hr := frames_replacement hv context.place fun m hm =>
      Node.holds_of_mem_operands ((Builtin.replacement?_keepsOperands hreplaced).subset hm)
    cases event <;> simp [hr]
  · simp +contextual [hv, accessor]

theorem frames_binary (context : Context) : (binary n visit context).Frames law b := by
  simp only [binary, frames_bind, frames_need, true_and, gives_need]
  rintro left ⟨hleft, -⟩ right ⟨hright, -⟩
  have hcall := frames_phpCall hv context.place "isset" [.element right left]
    (by simp [Operand.sources, hleft, hright])
  simp [hv, hleft, hright, hcall]

theorem frames_unary (context : Context) : (unary n visit context).Frames law b := by
  simp only [unary, frames_bind, frames_need, true_and, gives_need]
  rintro argument ⟨h, -⟩
  have hcall (function : String) := frames_phpCall hv context.place function
    [.source argument false] (by simp [Operand.sources, h])
  split <;> simp [hv, h, hcall]

theorem frames_yielded : (yielded n visit).Frames law b := by
  unfold yielded
  split
  · rename_i value _ hparts
    have hvalue : n.Holds value.node := .of_head? (by simp [hparts])
    simp [suspension, hv, hvalue]
  · simp [suspension]

end Expressions

section Functions

@[simp]
theorem frames_registerParameter (param : Node) : (registerParameter param).Frames law b := by
  simp [registerParameter]

@[simp]
theorem frames_superclass (heritage : Node) : (superclass heritage).Frames law b := by
  unfold superclass
  split <;> simp

@[simp]
theorem frames_fieldKey (field : Node) : (fieldKey field).Frames law b := by
  unfold fieldKey
  split <;> simp

@[simp]
theorem frames_promoteFields (scope : Scope) (held : List (String × List Comment)) :
    (promoteFields scope held).Frames law b := by
  simp [promoteFields, knownFields]

@[simp]
theorem frames_accessorParameter (accessor : Part n) :
    (accessorParameter accessor).Frames law b := by
  unfold accessorParameter
  split <;> simp

@[simp]
theorem frames_modifiers (m : Node) : (modifiers m).Frames law b := by
  simp [modifiers]

theorem holds_parametersOf {params : Part n} (h : parametersOf n = some params) :
    n.Holds params.node ∧ params.node.isHolder = true := by
  rcases Option.or_eq_some_iff.mp h with hpart | ⟨-, hpart⟩
  · exact ⟨.of_part? hpart, Node.isHolder_of_part? hpart (.inr (.inl rfl))⟩
  · exact ⟨.of_part? hpart, Node.isHolder_of_part? hpart (.inr (.inr rfl))⟩

theorem frames_parameters (hv : ∀ p c, n.Holds p.node → (visit p c).Frames law b) :
    (parameters visit (parametersOf n)).Frames law b := by
  cases hparams : parametersOf n with
  | none => trivial
  | some params =>
    obtain ⟨hheld, hholder⟩ := holds_parametersOf hparams
    simp [parameters, hv, hheld, frames_commaSeparated hv _ (hheld.parts hholder)]

variable (hv : ∀ p c, n.Holds p.node → (visit p c).Frames law true)
include hv

theorem frames_function (header : String) (form : FunctionForm) {body : Part n}
    (hbody : (visit body {}).Frames law true) :
    (function visit header form (parametersOf n) body).Frames law b := by
  simp only [function, frames_inFunction, frames_bind, frames_emit, frames_indented,
    frames_parameters hv, hbody, frames_ite, frames_edit, frames_pure, implies_true, and_self]

theorem frames_functionNode (header : String) (form : FunctionForm) :
    (functionNode n visit header form).Frames law b := by
  simp only [functionNode, frames_bind, frames_need, true_and, gives_need]
  rintro body ⟨h, -⟩
  exact ⟨frames_function hv header form (hv body {} h), by simp⟩

theorem frames_functionDeclaration : (functionDeclaration n visit).Frames law b := by
  simp [functionDeclaration, frames_functionNode hv]

theorem frames_method (context : Context)
    (hbody : ∀ body p known c, n.child? .body = some body →
      p.node = { body with children := (Node.takeFieldComments known body.children).1 } →
      (visit p c).Frames law true) : (method n visit context).Frames law b := by
  have hconstructor : (constructorMethod n visit).Frames law b := by
    simp only [constructorMethod, knownFields, frames_bind, frames_need, frames_ask, true_and,
      gives_need]
    rintro body ⟨-, hpart⟩ known _
    refine ⟨frames_function hv _ _ ?_, by simp⟩
    exact hbody body.node _ known {} (Node.child?_of_part? hpart) rfl
  simp [method, frames_functionNode hv, hconstructor]

end Functions

section Classes

theorem frames_classDeclaration (hv : ∀ p c, n.Holds p.node → (visit p c).Frames law b) :
    (classDeclaration n visit).Frames law b := by
  simp +contextual [classDeclaration, FramesIn, hv]

theorem frames_fieldDefinition (hv : ∀ p c, n.Holds p.node → (visit p c).Frames law b) :
    (fieldDefinition n visit).Frames law b := by
  cases hvalue : n.part? .value with
  | none => simp [fieldDefinition, hvalue]
  | some value => simp [fieldDefinition, hvalue, hv, Node.Holds.of_part? hvalue]

theorem frames_accessorBody {a : Part n}
    (hv : ∀ body p c, a.node.child? .body = some body → p.node ∈ body.children →
      (visit p c).Frames law true) : (accessorBody visit a).Frames law true := by
  simp only [accessorBody, frames_bind, frames_accessorParameter, frames_needOf, true_and,
    gives_needOf]
  intro _ _ body hbody
  have hstatements : (statements visit body.parts).Frames law true := by
    rw [statements, frames_bind]
    refine ⟨by simp, fun _ _ => frames_forM _ _ fun p hp => ?_⟩
    exact hv body.node p {} (Part.child?_of_part? hbody) (Part.mem_children_of_mem_parts hp)
  split <;> simp [hstatements]

theorem frames_accessorFunction (signature : Signature) {accessors : List (Part n)}
    (hv : ∀ a ∈ accessors, ∀ body p c, a.node.child? .body = some body → p.node ∈ body.children →
      (visit p c).Frames law true) : (accessorFunction visit signature accessors).Frames law b := by
  cases accessors with
  | nil => trivial
  | cons first rest =>
    have hall : ∀ a ∈ first :: rest, (accessorBody visit a).Frames law true :=
      fun a ha => frames_accessorBody (hv a ha)
    simp only [accessorFunction, frames_bind, frames_edit, frames_inFunction, frames_pure, true_and,
      and_true, implies_true]
    intro _ _
    refine frames_forM _ _ fun a ha => ?_
    simp [hall a ha]

theorem frames_classBody (hv : ∀ p c, n.Holds p.node → (visit p c).Frames law b)
    (haccessor : ∀ (a body : Node) p c, a ∈ n.children → a.accessor?.isSome = true →
      a.child? .body = some body → p.node ∈ body.children → (visit p c).Frames law true) :
    (classBody n visit).Frames law b := by
  have hfunction (signature : Signature) (a : Accessor) :
      (accessorFunction visit signature (accessors n a)).Frames law b := by
    refine frames_accessorFunction signature fun p hp body q c hbody hq => ?_
    obtain ⟨hmem, hkind⟩ := List.mem_filter.mp hp
    refine haccessor p.node body q c ?_ (by simp [of_decide_eq_true hkind]) hbody hq
    exact Node.mem_children_of_mem_parts hmem
  have hmember (m : Part n) (hm : m ∈ n.parts) : (classMember visit m).Frames law b := by
    simp [classMember, FramesIn, hv m _ (.of_mem_parts hm)]
  simp only [classBody, frames_bind, frames_within, FramesIn, hfunction, implies_true, and_true]
  exact frames_forM _ _ hmember

end Classes

section Modules

@[simp]
theorem frames_useLines (lines : List String) : (useLines lines).Frames law b := by
  cases lines <;> simp [useLines]

@[simp]
theorem frames_patternLine (property : Node) : (patternLine property).Frames law b := by
  simp only [patternLine, frames_bind, frames_getOptions, true_and]
  intro options _
  split
  · simp
  · simp
  · cases property.child? .key <;> simp
  · simp

@[simp]
theorem frames_moduleLines (declarator : Node) : (moduleLines declarator).Frames law b := by
  unfold moduleLines
  split <;> simp

@[simp]
theorem frames_specifierLine (module : String) (specifier : Node) :
    (specifierLine module specifier).Frames law b := by
  unfold specifierLine
  split <;> simp

@[simp]
theorem frames_importLines (module : String) (part : Node) :
    (importLines module part).Frames law b := by
  unfold importLines
  split
  · simp
  · split <;> simp
  · simp
  · simp

@[simp]
theorem frames_importStatement : (importStatement n).Frames law b := by
  unfold importStatement
  split <;> simp

theorem frames_moduleHead (hlaw : law.Grounded) (parts : List (Part n)) :
    (moduleHead parts).Frames law b := by
  induction parts with
  | nil => trivial
  | cons p rest ih =>
    simp only [moduleHead, frames_ite, frames_bind, frames_edit, frames_pure, ih]
    simp only [implies_true, and_true, true_and]
    intro _ hmodules
    simp only [Node.declaresModules, Bool.and_eq_true] at hmodules
    refine frames_around (hlaw.bare b p.node _ (.inr (.inr (.inr hmodules.1.1))) ?_)
    simp

end Modules

section Statements

@[simp]
theorem frames_jump (keyword : String) : (jump n keyword).Frames law b := by
  cases hlabel : n.child? .label <;> simp [jump, hlabel]

theorem holds_forClause? {clause p : Part n} (h : n.Holds clause.node)
    (hp : clause.forClause? = some p) : n.Holds p.node := by
  unfold Part.forClause? at hp
  split at hp
  · cases hp
  · rename_i hkind
    exact h.parts (by simp [Node.isHolder, hkind]) p (List.mem_of_mem_head? hp)
  · obtain rfl := Option.some.inj hp
    exact h

theorem keyword?_forDeclaration_body (hframed : visit.Framed) (parts : List (Part n)) :
    (match parts with
    | [] => (Pure.pure () : Script true Unit)
    | first :: rest => do
      liftM (visit first { place := .declarator true })
      rest.forM fun p => do
        separate
        liftM (visit p { place := .declarator true })).keyword? = none := by
  split
  · rfl
  · rename_i first rest
    rcases hframed first { place := .declarator true } with ⟨parens, m, heq⟩ | ⟨e, heq⟩
    · rw [heq]
      rfl
    · rw [heq]
      rfl

variable (hv : ∀ p c, n.Holds p.node → (visit p c).Frames law b)
include hv

theorem frames_program (hlaw : law.Grounded) : (program n visit).Frames law b := by
  have hrest (rest : List (Part n))
      (h : (moduleHead (n.parts.filter (·.node.kind != .hashBangLine))).Gives rest) :
      (statements visit rest).Frames law b := by
    refine frames_statements hv fun p hp => ?_
    exact .of_mem_parts (List.mem_of_mem_filter (subset_of_gives_moduleHead h hp))
  simp only [program, frames_inScope, frames_bind, frames_getOptions, true_and]
  intro options _
  split <;> simp +contextual [frames_moduleHead hlaw, hrest]

theorem frames_declarator (context : Context) : (declarator n visit context).Frames law b := by
  cases hvalue : n.part? .value with
  | none => simp +contextual [declarator, hvalue, hv]
  | some value => simp +contextual [declarator, hvalue, hv, Node.Holds.of_part? hvalue]

theorem frames_declaration : (declaration n visit).Frames law b := by
  refine frames_separated _ _ fun m hm => ?_
  obtain ⟨p, hp, rfl⟩ := List.mem_map.mp hm
  exact hv p _ (.of_mem_partsOf hp)

theorem frames_arrayPattern : (arrayPattern n visit).Frames law b := by
  have hparts : ∀ p ∈ patternElements n, n.Holds p.node := by
    intro p hp
    have hmem := (List.dropWhile_sublist _).subset (List.mem_reverse.mp hp)
    exact .of_mem_parts (List.mem_reverse.mp hmem)
  simp [arrayPattern, frames_commaSeparated hv _ hparts]

theorem frames_expressionStatement : (expressionStatement n visit).Frames law b := by
  unfold expressionStatement
  split
  · trivial
  · rename_i expression _ hparts
    have hexpression : n.Holds expression.node := .of_head? (by simp [hparts])
    simp [hv, hexpression]

theorem frames_returnStatement : (returnStatement n visit).Frames law b := by
  cases hparts : n.parts with
  | nil => simp [returnStatement, hparts]
  | cons value rest =>
    have hvalue : n.Holds value.node := .of_head? (by simp [hparts])
    simp [returnStatement, hparts, hv, hvalue]

theorem frames_ifStatement : (ifStatement n visit).Frames law b := by
  cases helse : n.part? .alternative with
  | none => simp +contextual [ifStatement, helse, hv]
  | some alternative =>
    simp +contextual [ifStatement, helse, hv, Node.Holds.of_part? helse]

theorem frames_elseClause : (elseClause n visit).Frames law b := by
  simp +contextual [elseClause, hv]

theorem frames_forDeclaration (hlaw : law.Grounded) (hframed : visit.Framed) {d : Part n}
    (hd : n.Holds d.node) (hkind : d.node.kind.isDeclaration = true) :
    (forDeclaration visit d).Frames law b := by
  have hparts : ∀ p ∈ d.partsOf .variableDeclarator, n.Holds p.node := fun p hp =>
    hd.parts (by simp [Node.isHolder, hkind]) p (List.mem_of_mem_filter hp)
  have hvisit (p : Part n) (hp : p ∈ d.partsOf .variableDeclarator) (c : Context) :
      (liftM (visit p c) : Script true Unit).Frames law b :=
    (hv p c (hparts p hp)).inHead hlaw.lifts
  refine frames_around (hlaw.declaration b d.node _ hkind ?_ ?_)
  · exact keyword?_forDeclaration_body hframed _
  split
  · trivial
  · rename_i first rest hall
    rw [hall] at hvisit
    rw [frames_bind]
    refine ⟨hvisit first (by simp) _, fun _ _ => frames_forM _ _ fun p hp => ?_⟩
    simp [hvisit p (by simp [hp])]

theorem frames_forClause {clause? : Option (Part n)} (h : ∀ p ∈ clause?, n.Holds p.node) :
    (forClause visit clause?).Frames law b := by
  unfold forClause
  split
  · rename_i p hp
    obtain ⟨clause, rfl, hclause⟩ := Option.bind_eq_some_iff.mp hp
    have hheld := holds_forClause? (h clause rfl) hclause
    simp [hv, hheld]
  · simp

theorem frames_forHead (hlaw : law.Grounded) (hframed : visit.Framed) :
    (forHead n visit).Frames law b := by
  have hclause (f : Field) :
      (liftM (forClause visit (n.part? f)) : Script true Unit).Frames law b :=
    (frames_forClause hv fun p hp => .of_part? hp).inHead hlaw.lifts
  have hincrement : (liftM (commaSeparated visit {} (n.partsIn .increment)) :
      Script true Unit).Frames law b :=
    (frames_commaSeparated hv {} fun _ => Node.Holds.of_mem_partsIn).inHead hlaw.lifts
  unfold forHead
  split
  · rename_i d hd
    obtain ⟨hpart, hkind⟩ := Option.filter_eq_some_iff.mp hd
    have hdeclaration := frames_forDeclaration hv hlaw hframed (.of_part? hpart) hkind
    simp [hdeclaration, hclause, hincrement]
  · simp [hclause, hincrement]

theorem frames_forStatement (hlaw : law.Grounded) (hframed : visit.Framed) :
    (forStatement n visit).Frames law b := by
  simp +contextual [forStatement, hv, frames_forHead hv hlaw hframed]

theorem frames_forInStatement : (forInStatement n visit).Frames law b := by
  simp +contextual [forInStatement, hv]

theorem frames_switchBody : (switchBody n visit).Frames law b := by
  simp [switchBody, frames_statements hv fun _ => Node.Holds.of_mem_parts]

theorem frames_switchCase : (switchCase n visit).Frames law b := by
  have hbody : (statements visit (n.partsIn .body)).Frames law b :=
    frames_statements hv fun _ => Node.Holds.of_mem_partsIn
  cases hvalue : n.part? .value with
  | none => cases hparts : n.partsIn .body <;> simp_all [switchCase]
  | some value =>
    have hheld := Node.Holds.of_part? hvalue
    cases hparts : n.partsIn .body <;> simp_all [switchCase]

theorem frames_tryStatement : (tryStatement n visit).Frames law b := by
  have hclauses : ∀ clause? ∈ [n.part? .handler, n.part? .finalizer],
      ∀ p ∈ clause?, n.Holds p.node := by
    simp only [List.mem_cons, List.not_mem_nil, or_false]
    rintro _ (rfl | rfl) p hp <;> exact .of_part? hp
  simp only [tryStatement, frames_bind, frames_emit, frames_need, true_and, gives_need]
  rintro _ _ body ⟨hbody, -⟩
  refine ⟨frames_bracedBody hv hbody, fun _ _ => frames_forM _ _ fun clause? hmem => ?_⟩
  split
  · rename_i clause
    simp [hv, hclauses _ hmem clause rfl]
  · trivial

theorem frames_catchClause : (catchClause n visit).Frames law b := by
  cases hparam : n.part? .parameter with
  | none => simp +contextual [catchClause, hparam, hv]
  | some param =>
    simp +contextual [catchClause, catchParameter, hparam, hv, Node.Holds.of_part? hparam]

theorem frames_exportStatement : (exportStatement n visit).Frames law b := by
  unfold exportStatement
  split
  · rename_i declaration hdeclaration
    exact hv declaration {} (.of_part? hdeclaration)
  · rename_i value _ hvalue
    simp [hv, Node.Holds.of_part? hvalue]
  · trivial

end Statements

end Emit

open Emit in
/-- The outermost frames in the script of a rule obey a law that the frames of the nodes obey which
the rule emits. -/
theorem frames_rule {law : FrameLaw} (hlaw : law.Grounded) {n : Node} {rule : Rule}
    (hrule : rule? n.kind = some rule) {visit : Visit n} (hframed : visit.Framed)
    (hvisit : ∀ b p c, n.Visits b p.node → (visit p c).Frames law b) (context : Context) :
    (rule n visit context).Frames law false := by
  have hv (p : Part n) (c : Context) (h : n.Holds p.node) :
      (visit p c).Frames law n.kind.isFunction := by
    cases hkind : n.kind.isFunction with
    | false => exact hvisit false p c (.inPlace hkind h)
    | true => exact hvisit true p c (.ofFunction hkind h)
  have hclassBody (hkind : n.kind = .classBody) : (classBody n visit).Frames law false := by
    rw [hkind] at hv
    exact frames_classBody hv fun a body p c ha haccessor hbody hp =>
      hvisit true p c (.ofAccessor ha haccessor hbody hp)
  have hmethod (hkind : n.kind = .methodDefinition) :
      (method n visit context).Frames law false := by
    rw [hkind] at hv
    exact frames_method hv context fun body p known c hbody hp =>
      hvisit true p c (hp ▸ .ofConstructor known hkind hbody)
  have hparts : ∀ p ∈ n.parts, n.Holds p.node := fun p hp => .of_mem_parts hp
  -- One case for each kind; the kinds that no rule emits fall away with `hrule`.
  cases hkind : n.kind
  all_goals rw [hkind] at hrule hv; cases hrule
  all_goals
    simp only [Kind.isFunction, Kind.isFunctionDeclaration, Kind.isFunctionExpression, reduceCtorEq,
      decide_true, decide_false, Bool.or_true, Bool.or_false, Bool.or_self] at hv
  case program => exact frames_program hv hlaw
  case statementBlock => exact frames_statements hv hparts
  case expressionStatement => exact frames_expressionStatement hv
  case lexicalDeclaration | variableDeclaration => exact frames_declaration hv
  case variableDeclarator => exact frames_declarator hv context
  case objectPattern => exact (frames_padded ..).mpr (frames_commaSeparated hv _ hparts)
  case arrayPattern => exact frames_arrayPattern hv
  case pairPattern => simp +contextual [pairPattern, hv, hlaw]
  case shorthandPattern | shorthandProperty => exact frames_shorthandProperty
  case assignmentPattern => simp +contextual [defaultValue, hv]
  case restPattern | spreadElement => simp +contextual [spread, hv]
  case identifier => exact frames_identifier context
  case computedPropertyName => simp +contextual [computedName, hv]
  case string => exact frames_stringText n n.text
  case regex => simp [regexLiteral]
  case templateString => exact frames_template hv
  case binaryExpression => exact frames_binary hv context
  case assignmentExpression => simp +contextual [assignment, hv]
  case augmentedAssignment => simp +contextual [augmentedAssignment, hv]
  case ternaryExpression => simp +contextual [conditional, branch, hv]
  case unaryExpression => exact frames_unary hv context
  case updateExpression => simp +contextual [update, hv]
  case sequenceExpression => exact frames_commaSeparated hv _ hparts
  case yieldExpression => exact frames_yielded hv
  case awaitExpression => simp +contextual [awaited, suspension, hv]
  case callExpression => exact frames_call hv hlaw context
  case newExpression => exact frames_construction hv hlaw context
  case arguments => simp [arguments, argumentList, frames_commaSeparated hv _ hparts]
  case memberExpression => exact frames_member hv context
  case subscriptExpression => simp +contextual [subscriptExpression, subscript, hv]
  case functionDeclaration | generatorDeclaration => exact frames_functionDeclaration hv
  case function | functionExpression | generatorFunction | arrowFunction =>
    exact frames_functionNode hv _ _
  case classDeclaration => exact frames_classDeclaration hv
  case classBody => exact hclassBody hkind
  case methodDefinition => exact hmethod hkind
  case fieldDefinition => exact frames_fieldDefinition hv
  case object => exact frames_objectLiteral hv
  case pair => simp +contextual [pair, hv, hlaw]
  case array => simp [arrayLiteral, arrayBlock, frames_commaSeparated hv _ hparts]
  case elision => simp [hole]
  case returnStatement => exact frames_returnStatement hv
  case ifStatement => exact frames_ifStatement hv
  case elseClause => exact frames_elseClause hv
  case whileStatement => simp +contextual [whileStatement, hv]
  case doStatement => simp +contextual [doStatement, hv]
  case forStatement => exact frames_forStatement hv hlaw hframed
  case forInStatement => exact frames_forInStatement hv
  case switchStatement => simp +contextual [switchStatement, hv]
  case switchBody => exact frames_switchBody hv
  case switchCase | switchDefault => exact frames_switchCase hv
  case breakStatement | continueStatement => exact frames_jump _
  case labeledStatement => simp +contextual [labeledStatement, hv]
  case tryStatement => exact frames_tryStatement hv
  case catchClause => exact frames_catchClause hv
  case finallyClause => simp +contextual [finallyClause, hv]
  case throwStatement => simp +contextual [throwStatement, hv]
  case importStatement => exact frames_importStatement
  case exportStatement => exact frames_exportStatement hv
  -- The other rules write a text or fail, and have no frame of their own.
  all_goals trivial

end EcmaPhp
