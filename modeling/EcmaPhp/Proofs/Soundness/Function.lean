import EcmaPhp.Proofs.Soundness.Expression

/-! The rules of declarations, functions and classes find what they need. -/
namespace EcmaPhp.Emit
open Script EmitM
open Failure (Refuses)

variable {P : Location → Prop} {k : Ground} {n : Node} {visit : Visit n}

section Declarations

variable (hn : n.Complete P) (hv : Visit.Sound P visit) (hk : k.inScope = true)
include hn hv hk

theorem sound_declaration (hholds : n.kind.holdsMethods = false) :
    (declaration n visit).Sound (Refuses P) k := by
  refine sound_separated _ _ fun m hm => ?_
  obtain ⟨p, hp, rfl⟩ := List.mem_map.mp hm
  exact hv.placed (hn.placed_parts hholds p (List.mem_of_mem_filter hp)) hk

theorem sound_declarator (hkind : n.kind = .variableDeclarator) (context : Context) :
    (declarator n visit context).Sound (Refuses P) k := by
  obtain ⟨name, hname, hplaced⟩ := hn.exists_placed hkind .name (by decide)
  have hvalue {p : Part n} (hp : n.part? .value = some p) : p.node.Placed P :=
    hn.placed_part? (by rw [hkind]; rfl) hp
  cases hpart : n.part? .value with
  | none => simp [declarator, hn.hasNames, hk, need_eq hname, hpart, hv.placed hplaced hk]
  | some value =>
    simp [declarator, hn.hasNames, hk, need_eq hname, hpart, hv.placed hplaced hk,
      hv.placed (hvalue hpart) hk]

theorem sound_arrayPattern (hkind : n.kind = .arrayPattern) :
    (arrayPattern n visit).Sound (Refuses P) k := by
  have hparts := hn.placed_parts (by rw [hkind]; rfl)
  have helements : ∀ p ∈ patternElements n, p.node.Placed P := by
    intro p hp
    have hmem := (List.dropWhile_sublist _).subset (List.mem_reverse.mp hp)
    exact hparts p (List.mem_reverse.mp hmem)
  simp [arrayPattern, sound_commaSeparated hv hk helements]

theorem sound_pairPattern (hkind : n.kind = .pairPattern) :
    (pairPattern n visit).Sound (Refuses P) k := by
  obtain ⟨key, hkey, hplaced⟩ := hn.exists_placed hkind .key (by decide)
  obtain ⟨value, hvalue, hplaced'⟩ := hn.exists_placed hkind .value (by decide)
  simp [pairPattern, need_eq hkey, need_eq hvalue, sound_key hv hk hplaced, hv.placed hplaced' hk]

theorem sound_defaultValue (hkind : n.kind = .assignmentPattern) (context : Context) :
    (defaultValue n visit context).Sound (Refuses P) k := by
  obtain ⟨left, hleft, hplaced⟩ := hn.exists_placed hkind .left (by decide)
  obtain ⟨right, hright, hplaced'⟩ := hn.exists_placed hkind .right (by decide)
  have hrefused : n.Refused (some "destructuring default") := .patternDefault (.inl hkind)
  simp [defaultValue, need_eq hleft, need_eq hright, hv.placed hplaced hk, hv.placed hplaced' hk,
    hrefused]

theorem sound_spread (hchild : n.kind.hasChild = true) (context : Context) :
    (spread n visit context).Sound (Refuses P) k := by
  obtain ⟨value, _, hfirst, hplaced⟩ := hn.exists_first rfl hchild
  simp +contextual [spread, needFirst_eq hfirst, hv.placed hplaced hk, Node.Refused.objectRest]

end Declarations

section Functions

theorem sound_registerParameter {param : Node} (hp : param.Complete P) (hk : k.inScope = true) :
    (registerParameter param).Sound (Refuses P) k := by
  have hrefused : (if param.kind = .assignmentPattern then param.child? .left
      else some param).any (·.kind.isPattern) = true →
        param.Refused (some "destructured parameter") := by
    intro hpattern
    split at hpattern
    · rename_i hkind
      exact .parameter (.inr ⟨hkind, hpattern⟩)
    · exact .parameter (.inl hpattern)
  simpa [registerParameter, hp.hasNames, hk] using hrefused

theorem sound_superclass {heritage : Node} (hkind : heritage.kind = .classHeritage) :
    (superclass heritage).Sound (Refuses P) k := by
  unfold superclass
  split
  · rename_i base _ hchildren
    simp only [Bool.or_eq_true, decide_eq_true_eq, sound_ite, sound_emit, sound_unsupported,
      implies_true, true_and, not_or]
    intro hbase
    exact .superclass hkind (by simpa [hchildren] using hbase)
  · rename_i hchildren
    exact .superclass hkind (by simp [hchildren])

theorem sound_fieldKey {field : Node} (hf : field.Complete P)
    (hkind : field.kind = .fieldDefinition) : (fieldKey field).Sound (Refuses P) k := by
  obtain ⟨property, hproperty⟩ :=
    hf.shaped.exists_child? (f := .property) (by simp [hkind, Kind.fields])
  simp [fieldKey, hproperty]

@[simp]
theorem sound_modifiers (m : Node) : (modifiers m).Sound (Refuses P) k := by
  simp [modifiers]

/-- Fields are declared at a point. -/
theorem sound_promoteFields (hpoints : 0 < k.points) (scope : Scope)
    (held : List (String × List Comment)) : (promoteFields scope held).Sound (Refuses P) k := by
  simp [promoteFields, knownFields, hpoints]

/-- What can be the parameters of a function. -/
def IsParameters (P : Location → Prop) (params : Option (Part n)) : Prop :=
  ∀ p ∈ params, p.node.Complete P ∧ p.node.kind.holdsMethods = false

theorem isParameters_parametersOf (hn : n.Complete P) : IsParameters P (parametersOf n) := by
  intro p hp
  have hchild {f : Field} (hlist : n.kind.holdsList (some f) = true) (hpart : n.part? f = some p) :
      p.node.Complete P ∧ p.node.kind.holdsMethods = false := by
    have hc := Node.child?_of_part? hpart
    exact ⟨hn.of_child? hc, hn.holdsMethods_child? hc hlist⟩
  rcases Option.or_eq_some_iff.mp hp with hpart | ⟨-, hpart⟩
  · exact hchild rfl hpart
  · exact hchild rfl hpart

variable (hn : n.Complete P) (hv : Visit.Sound P visit)
include hv

theorem sound_parameters (hk : k.inScope = true) {params : Option (Part n)}
    (hparams : IsParameters P params) : (parameters visit params).Sound (Refuses P) k := by
  cases params with
  | none => trivial
  | some params =>
    obtain ⟨hcomplete, hholds⟩ := hparams params rfl
    have hparts := Part.placed_parts hcomplete hholds
    simp only [parameters, sound_ite, sound_bind, sound_register, hcomplete.hasNames, hk, and_self,
      true_and]
    refine ⟨fun hkind _ _ => ?_, fun _ => ⟨?_, fun _ _ => sound_commaSeparated hv hk hparts⟩⟩
    · exact hv.placed ⟨hcomplete, by simp [hkind]⟩ hk
    · exact sound_forM _ _ fun p hp => sound_registerParameter (hparts p hp).complete hk

theorem sound_function (header : String) (form : FunctionForm) {params : Option (Part n)}
    {body : Part n} (hparams : IsParameters P params) (hbody : body.node.Placed P) :
    (function visit header form params body).Sound (Refuses P) k := by
  have hparameters : (parameters visit params).Sound (Refuses P) { k with inScope := true } :=
    sound_parameters hv rfl hparams
  have hvisit : (visit body {}).Sound (Refuses P) ⟨k.points + 2, true⟩ := hv.placed hbody rfl
  simp only [function, sound_inFunction, sound_bind, sound_emit, sound_indented, sound_ite,
    sound_edit, sound_pure, hparameters, hvisit, Ground.Admits, implies_true, and_true, true_and]
  omega

include hn

theorem sound_functionNode (hbody : .body ∈ n.kind.fields) (header : String)
    (form : FunctionForm) : (functionNode n visit header form).Sound (Refuses P) k := by
  obtain ⟨body, hpart, hplaced⟩ := hn.exists_placed rfl .body hbody
  simp [functionNode, need_eq hpart,
    sound_function hv header form (isParameters_parametersOf hn) hplaced]

theorem sound_functionDeclaration (hkind : n.kind.isFunctionDeclaration = true) :
    (functionDeclaration n visit).Sound (Refuses P) k := by
  have hfields := Kind.fields_of_isFunctionDeclaration hkind
  obtain ⟨name, hname, -⟩ := hn.exists_placed rfl .name (by simp [hfields])
  have hnode (header : String) (form : FunctionForm) :
      (functionNode n visit header form).Sound (Refuses P) k :=
    sound_functionNode hn hv (by simp [hfields]) header form
  simp [functionDeclaration, need_eq hname, hnode]

theorem sound_functionExpression (hkind : n.kind.isFunctionExpression = true) :
    (functionExpression n visit).Sound (Refuses P) k := by
  have hbody : .body ∈ n.kind.fields := by simp [Kind.fields_of_isFunctionExpression hkind]
  exact sound_functionNode hn hv hbody "function " .closure

end Functions

section Classes

theorem sound_accessorParameter {accessor : Part n} (ha : accessor.node.Complete P)
    (hk : k.inScope = true) : (accessorParameter accessor).Sound (Refuses P) k := by
  unfold accessorParameter
  split
  · rename_i param _ _ hparams
    have hparam : param.node.Complete P := by
      obtain ⟨params, hpart, hparts⟩ : ∃ params, accessor.part? .parameters = some params ∧
          param ∈ params.parts := by
        cases hpart : accessor.part? .parameters with
        | none => simp [hpart] at hparams
        | some params => exact ⟨params, rfl, by simp_all⟩
      exact (ha.of_child? (Part.child?_of_part? hpart)).child
        (Part.mem_children_of_mem_parts hparts)
    simpa [hparam.hasNames, hk] using Node.Refused.setterParameter (n := param.node)
  · trivial

/-- The part in a field of a method. -/
theorem exists_part?_of_method {m : Part n} (hm : m.node.Complete P)
    (hkind : m.node.kind = .methodDefinition) {f : Field} (hf : f ∈ Kind.methodDefinition.fields) :
    ∃ q, m.part? f = some q := by
  obtain ⟨q, hq⟩ := hm.shaped.exists_part? (hkind ▸ hf)
  exact ⟨m.trans q, by rw [Part.part?, hq, Option.map_some]⟩

variable (hn : n.Complete P) (hv : Visit.Sound P visit) (hk : k.inScope = true)
include hv

theorem sound_accessorBody (hk : k.inScope = true) {accessor : Part n}
    (ha : accessor.node.Complete P) (hkind : accessor.node.kind = .methodDefinition) :
    (accessorBody visit accessor).Sound (Refuses P) k := by
  obtain ⟨body, hbody⟩ := exists_part?_of_method ha hkind (f := .body) (by decide)
  have hchild := Part.child?_of_part? hbody
  have hholds : body.node.kind.holdsMethods = false :=
    ha.holdsMethods_child? hchild (by simp [Kind.holdsList, hkind])
  have hparts := Part.placed_parts (ha.of_child? hchild) hholds
  simp only [accessorBody, needOf_eq hbody, sound_bind, sound_accessorParameter ha hk, sound_pure,
    gives_pure, true_and, forall_eq]
  intro _ _
  split
  · trivial
  · simp [sound_statements hv hk hparts]

theorem sound_accessorFunction (signature : Signature) {accessors : List (Part n)}
    (haccessors : ∀ a ∈ accessors, a.node.Complete P ∧ a.node.kind = .methodDefinition) :
    (accessorFunction visit signature accessors).Sound (Refuses P) k := by
  cases accessors with
  | nil => trivial
  | cons first rest =>
    simp only [accessorFunction, sound_bind, sound_edit, sound_inFunction, sound_pure, true_and,
      Ground.Admits, implies_true, and_true]
    refine fun _ _ => sound_forM _ _ fun a ha => ?_
    obtain ⟨hcomplete, hkind⟩ := haccessors a ha
    obtain ⟨name, hname⟩ := exists_part?_of_method hcomplete hkind (f := .name) (by decide)
    have hbody : (accessorBody visit a).Sound (Refuses P) ⟨k.points + 2, true⟩ :=
      sound_accessorBody hv rfl hcomplete hkind
    simp [needOf_eq hname, hbody]

theorem sound_classMember (hk : k.inScope = true) {m : Part n} (hm : m.node.Complete P) :
    (classMember visit m).Sound (Refuses P) k := by
  simp only [classMember, sound_ite, sound_within, Ground.inside]
  refine ⟨fun _ => ?_, fun hconstructor => ?_⟩
  · exact hv m {} _ hk hm fun _ _ => Nat.succ_pos k.points
  · exact hv m {} k hk hm fun h => absurd h hconstructor

include hn

theorem sound_constructorMethod (hkind : n.kind = .methodDefinition) (hpoints : 0 < k.points) :
    (constructorMethod n visit).Sound (Refuses P) k := by
  obtain ⟨body, hbody, hplaced⟩ := hn.exists_placed hkind .body (by decide)
  have hstripped (known : List String) : (body.withoutFieldComments known).1.node.Placed P :=
    ⟨Part.complete_withoutFieldComments hplaced.complete known, hplaced.kind⟩
  simp [constructorMethod, need_eq hbody, knownFields, sound_promoteFields hpoints,
    sound_function hv _ _ (isParameters_parametersOf hn) (hstripped _)]

include hk

theorem sound_classBody : (classBody n visit).Sound (Refuses P) k := by
  have haccessors (a : Accessor) :
      ∀ p ∈ accessors n a, p.node.Complete P ∧ p.node.kind = .methodDefinition := by
    intro p hp
    obtain ⟨hmem, haccessor⟩ := List.mem_filter.mp hp
    refine ⟨hn.child (Node.mem_children_of_mem_parts hmem), ?_⟩
    by_contra hkind
    simp [Node.accessor?, hkind] at haccessor
  have hmembers : ∀ p ∈ n.parts, (classMember visit p).Sound (Refuses P) k :=
    fun p hp => sound_classMember hv hk (hn.child (Node.mem_children_of_mem_parts hp))
  simp [classBody, sound_forM _ _ hmembers, sound_accessorFunction hv _ (haccessors _)]

theorem sound_classDeclaration (hkind : n.kind = .classDeclaration) :
    (classDeclaration n visit).Sound (Refuses P) k := by
  obtain ⟨name, hname, -⟩ := hn.exists_placed hkind .name (by decide)
  obtain ⟨body, hbody, hplaced⟩ := hn.exists_placed hkind .body (by decide)
  have hkeys : ∀ m ∈ body.node.childrenOf .fieldDefinition, (fieldKey m).Sound (Refuses P) k := by
    intro m hm
    obtain ⟨hmem, hfield⟩ := List.mem_filter.mp hm
    exact sound_fieldKey (hplaced.complete.child hmem) (by simpa using hfield)
  have hheritage : ∀ m ∈ n.childrenOf .classHeritage, (superclass m).Sound (Refuses P) k := by
    intro m hm
    exact sound_superclass (by simpa using (List.mem_filter.mp hm).2)
  simp [classDeclaration, need_eq hname, need_eq hbody, hn.hasNames, hk, sound_mapM _ _ hkeys,
    sound_forM _ _ hheritage, hv.placed hplaced]

theorem sound_method (hkind : n.kind = .methodDefinition) (context : Context)
    (hfits : n.Fits context k) : (method n visit context).Sound (Refuses P) k := by
  obtain ⟨name, hname, -⟩ := hn.exists_placed hkind .name (by decide)
  have hnode (header : String) (form : FunctionForm) :
      (functionNode n visit header form).Sound (Refuses P) k :=
    sound_functionNode hn hv (by simp [hkind, Kind.fields]) header form
  have hcomputed : name.node.kind = .computedPropertyName →
      n.Refused (some "computed method name") := fun hcomputed =>
    .methodName hkind (by simp [Node.child?_of_part? hname, hcomputed])
  simp only [method, need_eq hname, sound_bind, sound_pure, gives_pure, sound_ite,
    sound_unsupported, sound_register, sound_emit, sound_modifiers, hn.hasNames, hk, hnode,
    Failure.Refuses, true_and, and_self, forall_eq, implies_true, and_true]
  refine ⟨fun haccessor _ => .accessor haccessor, fun _ => ⟨hcomputed, ?_⟩⟩
  intro _ hplace _ _ _ _ hc
  exact sound_constructorMethod hn hv hkind (hfits hc hplace)

theorem sound_fieldDefinition (hkind : n.kind = .fieldDefinition) :
    (fieldDefinition n visit).Sound (Refuses P) k := by
  obtain ⟨property, hproperty, -⟩ := hn.exists_placed hkind .property (by decide)
  have hcomputed : property.node.kind = .computedPropertyName →
      n.Refused (some "computed field name") := fun hcomputed =>
    .fieldName hkind (by simp [Node.child?_of_part? hproperty, hcomputed])
  cases hvalue : n.part? .value with
  | none => simpa [fieldDefinition, need_eq hproperty, hn.hasNames, hk, hvalue] using hcomputed
  | some value =>
    simpa [fieldDefinition, need_eq hproperty, hn.hasNames, hk, hvalue,
      hv.placed (hn.placed_part? (by rw [hkind]; rfl) hvalue) hk] using hcomputed

end Classes

end EcmaPhp.Emit
