import EcmaPhp.Proofs.Budget.Expression
import EcmaPhp.Proofs.Budget.Function

/-! The rules for statements keep to what their nodes may be charged, and so does the emission of a
whole tree. -/
namespace EcmaPhp

namespace Emit
open Script EmitM

variable {τ : Tariff} {B : ℕ} {n : Node} {visit : Visit n}

section Modules

theorem fits_useLines (lines : List String) : (useLines lines).Fits τ 0 := by
  cases lines with
  | nil => exact fits_pure _
  | cons first rest =>
    refine (fits_emit _).after fun _ => fits_forM_free _ _ fun line _ => ?_
    exact (fits_edit .breakLine).after fun _ => fits_emit _

theorem fits_patternLine (property : Node) : (patternLine property).Fits τ 0 := by
  refine Fits.options (fun o => ?_) fun o a => rfl
  dsimp only
  split
  · exact fits_pure _
  · exact fits_fail _
  · refine fits_ite (fun _ => fits_unsupported _ _) fun _ => ?_
    split
    · exact fits_pure _
    · exact fits_fail _
  · exact fits_unsupported _ _

theorem fits_moduleLines (declarator : Node) : (moduleLines declarator).Fits τ 0 := by
  unfold moduleLines
  split
  · exact fits_fail _
  · refine fits_ite (fun _ => ?_) fun _ => fits_ite (fun _ => ?_) fun _ => fits_unsupported _ _
    · exact Fits.options (fun o => fits_pure _) fun o a => rfl
    · exact fits_mapM_free _ _ fun property _ => fits_patternLine property

theorem fits_moduleDeclaration (statement : Node) :
    (moduleDeclaration statement).Fits τ (τ.own statement) :=
  Fits.around (B := 0) ((fits_mapM_free _ _ fun d _ => fits_moduleLines d).after fun lines =>
    fits_useLines lines.flatten) _

theorem fits_specifierLine (module : String) (specifier : Node) :
    (specifierLine module specifier).Fits τ 0 := by
  unfold specifierLine
  split
  · exact fits_fail _
  · exact fits_pure _

theorem fits_importLines (module : String) (part : Node) :
    (importLines module part).Fits τ 0 := by
  unfold importLines
  split
  · exact fits_pure _
  · split
    · exact fits_pure _
    · exact fits_fail _
  · exact fits_mapM_free _ _ fun specifier _ => fits_specifierLine module specifier
  · exact fits_pure _

theorem fits_importStatement (n : Node) : (importStatement n).Fits τ 0 := by
  unfold importStatement
  split
  · exact fits_pure _
  · refine .need fun source _ => Fits.options (fun o => ?_) fun o a => rfl
    refine (fits_mapM_free _ _ fun part _ => fits_importLines _ part).after fun lines => ?_
    exact fits_useLines lines.flatten

variable (hv : ∀ p c, (visit p c).Fits τ (τ.spent p.node c))
include hv

/-- What the head of a program passes over is charged for itself at most. -/
theorem fits_moduleHead (parts : List (Part n)) :
    (moduleHead parts >>= statements visit).Fits τ (τ.costAll (parts.map (·.node))) := by
  induction parts with
  | nil => exact fits_statements hv []
  | cons p rest ih =>
    have hown := τ.own_le_cost p.node
    rw [moduleHead, List.map_cons, Tariff.costAll_cons]
    split
    · have hcomments : τ.comments (p.node.leading ++ p.node.trailing) ≤ τ.cost p.node := by
        rw [Tariff.comments_append]
        rw [Tariff.own] at hown
        omega
      exact ((fits_edit (.comments _)).mono hcomments).bind fun _ => ih
    · split
      · exact ((fits_moduleDeclaration p.node).mono hown).bind fun _ => ih
      · exact fits_statements hv (p :: rest)

theorem fits_program : (program n visit).Fits τ (τ.costAll n.children) := by
  have hle : τ.costAll ((n.parts.filter (·.node.kind != .hashBangLine)).map (·.node)) ≤
      τ.costAll n.children := by
    rw [← n.map_node_parts]
    exact Tariff.costAll_le_of_sublist (List.filter_sublist.map _)
  refine Fits.inScope (Fits.options (fun o => ?_) fun o a => rfl) _
  have hrest := (fits_moduleHead hv _).mono hle
  split
  · exact (fits_emit _).after fun _ => (fits_edit .breakLine).after fun _ => hrest
  · exact hrest

theorem fits_exportStatement : (exportStatement n visit).Fits τ (τ.costAll n.children) := by
  unfold exportStatement
  split
  · rename_i declaration hdeclaration
    exact (fits_visit_part hv hdeclaration _).mono (τ.inField_le n _)
  · rename_i value _ hvalue
    refine (fits_emit _).after fun _ => Fits.before ?_ fun _ => fits_ensureTerminator
    exact (fits_visit_part hv hvalue _).mono (τ.inField_le n _)
  · exact fits_pure _

end Modules

section Declarations

variable (hv : ∀ p c, (visit p c).Fits τ (τ.spent p.node c))
include hv

theorem fits_declaration : (declaration n visit).Fits τ (τ.costAll n.children) := by
  have hdeclarators := fits_separated " " (n.partsOf .variableDeclarator)
    (fun p => visit p { place := .declarator false }) _ fun p _ => fits_visit hv p _
  refine hdeclarators.mono ?_
  rw [← n.map_node_parts, Tariff.costAll_eq_sum, List.map_map]
  exact (List.filter_sublist.map _).sum_le_sum fun _ _ => Nat.zero_le _

theorem fits_declarator (context : Context) :
    (declarator n visit context).Fits τ (τ.costAll n.children) := by
  refine Fits.mono ?_ (τ.inField_add_le n (f := .name) (g := .value) (by decide))
  refine (fits_register n).after fun _ => .need fun name hname => ?_
  refine (fits_visit_part hv hname _).bind fun _ => ?_
  split
  · rename_i value hvalue
    refine (fits_emit _).after fun _ => ?_
    exact (fits_visit_part hv hvalue _).before fun _ => fits_ensureTerminator
  · refine Fits.mono (A := 0) ?_ (Nat.zero_le _)
    dsimp only
    split
    · exact fits_ensureTerminator
    · exact (fits_emit _).after fun _ => fits_ensureTerminator

theorem fits_objectPattern : (objectPattern n visit).Fits τ (τ.costAll n.children) :=
  fits_padded (fits_commaSeparated_parts hv _) _ _

theorem fits_arrayPattern : (arrayPattern n visit).Fits τ (τ.costAll n.children) := by
  have hsublist : (patternElements n).Sublist n.parts := by
    have hdropped := (List.dropWhile_sublist (fun p => p.node.kind = .elision)
      (l := n.parts.reverse)).reverse
    rwa [List.reverse_reverse] at hdropped
  have hle := Tariff.costAll_le_of_sublist (τ := τ) (hsublist.map (·.node))
  rw [n.map_node_parts] at hle
  exact fits_block ((fits_commaSeparated hv _ _).mono hle) _ _

theorem fits_pairPattern : (pairPattern n visit).Fits τ (τ.costAll n.children) := by
  refine Fits.mono ?_ (τ.inField_add_le n (f := .key) (g := .value) (by decide))
  refine .need fun value hvalue => .need fun k hk => (fits_key_part hv hk).bind fun _ => ?_
  exact (fits_emit _).after fun _ => fits_visit_part hv hvalue _

theorem fits_defaultValue (context : Context) :
    (defaultValue n visit context).Fits τ (τ.costAll n.children) := by
  refine fits_ite (fun _ => ?_) fun _ => fits_unsupported _ _
  refine Fits.mono ?_ (τ.inField_add_le n (f := .left) (g := .right) (by decide))
  refine .need fun left hleft => (fits_visit_part hv hleft _).bind fun _ => ?_
  exact (fits_emit _).after fun _ => .need fun right hright => fits_visit_part hv hright _

end Declarations

section Statements

theorem fits_jump (n : Node) (keyword : String) : (jump n keyword).Fits τ 0 := by
  refine (fits_emit _).after fun _ => ?_
  split
  · exact (fits_note _).after fun _ => (fits_emit _).after fun _ => fits_emit _
  · exact fits_emit _

theorem fits_catchParameter {param : Part n} (hparam : ∀ c, (visit param c).Fits τ B) :
    (catchParameter visit param).Fits τ B := by
  unfold catchParameter
  dsimp only
  refine fits_ite (fun _ => fits_unsupported _ _) fun _ => (fits_register _).after fun _ => ?_
  exact (fits_emit _).after fun _ => hparam _

variable (hv : ∀ p c, (visit p c).Fits τ (τ.spent p.node c))
include hv

theorem fits_statementBlock : (statementBlock n visit).Fits τ (τ.costAll n.children) := by
  have hparts := fits_statements hv n.parts
  rwa [n.map_node_parts] at hparts

theorem fits_expressionStatement :
    (expressionStatement n visit).Fits τ (τ.costAll n.children) := by
  unfold expressionStatement
  split
  · exact fits_pure _
  · rename_i expression rest hparts
    refine fits_ite (fun _ => fits_pure _) fun _ => ?_
    exact (fits_visit_first hv hparts _).before fun _ => fits_ensureTerminator

theorem fits_returnStatement : (returnStatement n visit).Fits τ (τ.costAll n.children) := by
  refine (fits_emit _).after fun _ => ?_
  split
  · rename_i value rest hparts
    refine (fits_emit _).after fun _ => ?_
    exact (fits_visit_first hv hparts _).before fun _ => fits_ensureTerminator
  · exact fits_ensureTerminator.mono (Nat.zero_le _)

theorem fits_ifStatement : (ifStatement n visit).Fits τ (τ.costAll n.children) := by
  refine Fits.mono ?_ (τ.inField_add_add_le n (f := .condition) (g := .consequence)
    (k := .alternative) (by decide))
  refine (fits_emit _).after fun _ => .need fun test htest => ?_
  refine (fits_condition (fits_visit_part hv htest)).bind fun _ => (fits_emit _).after fun _ => ?_
  refine .need fun yes hyes => (fits_bracedBody (fits_visit_part hv hyes)).bind fun _ => ?_
  split
  · rename_i no hno
    exact (fits_emit _).after fun _ => fits_visit_part hv hno _
  · exact fits_pure _

theorem fits_elseClause : (elseClause n visit).Fits τ (τ.costAll n.children) := by
  refine (fits_emit _).after fun _ => .needFirst fun branch rest hparts => ?_
  refine fits_ite (fun _ => fits_visit_first hv hparts _) fun _ => ?_
  exact fits_bracedBody (fits_visit_first hv hparts)

theorem fits_whileStatement : (whileStatement n visit).Fits τ (τ.costAll n.children) := by
  refine Fits.mono ?_ (τ.inField_add_le n (f := .condition) (g := .body) (by decide))
  refine (fits_emit _).after fun _ => .need fun test htest => ?_
  refine (fits_condition (fits_visit_part hv htest)).bind fun _ => (fits_emit _).after fun _ => ?_
  exact .need fun body hbody => fits_bracedBody (fits_visit_part hv hbody)

theorem fits_doStatement : (doStatement n visit).Fits τ (τ.costAll n.children) := by
  refine Fits.mono ?_ (τ.inField_add_le n (f := .body) (g := .condition) (by decide))
  refine (fits_emit _).after fun _ => .need fun body hbody => ?_
  refine (fits_bracedBody (fits_visit_part hv hbody)).bind fun _ => (fits_emit _).after fun _ => ?_
  refine .need fun test htest => (fits_condition (fits_visit_part hv htest)).before fun _ => ?_
  exact fits_ensureTerminator

theorem fits_forInStatement : (forInStatement n visit).Fits τ (τ.costAll n.children) := by
  have hle := τ.inField_add_add_le n (f := .left) (g := .right) (k := .body) (by decide)
  refine .need fun left hleft => .need fun right hright => (fits_register _).after fun _ => ?_
  refine (fits_emit _).after fun _ => ?_
  have hhead : (do
      visit right {}
      emit " as "
      if loopsOverValues n then
        emit "$___ => "
        visit left {}
      else
        visit left {}
        emit " => $___" : EmitM Unit).Fits τ (τ.inField n .right + τ.inField n .left) := by
    refine (fits_visit_part hv hright _).bind fun _ => (fits_emit _).after fun _ => ?_
    refine fits_ite (fun _ => (fits_emit _).after fun _ => fits_visit_part hv hleft _) fun _ => ?_
    exact (fits_visit_part hv hleft _).before fun _ => fits_emit _
  refine Fits.mono (Fits.bind (fits_block hhead _ _) fun _ => (fits_emit _).after fun _ =>
    .need fun body hbody => fits_bracedBody (fits_visit_part hv hbody)) ?_
  omega

theorem fits_switchStatement : (switchStatement n visit).Fits τ (τ.costAll n.children) := by
  refine Fits.mono ?_ (τ.inField_add_le n (f := .value) (g := .body) (by decide))
  refine (fits_emit _).after fun _ => .need fun value hvalue => ?_
  refine (fits_condition (fits_visit_part hv hvalue)).bind fun _ => (fits_emit _).after fun _ => ?_
  exact .need fun body hbody => fits_visit_part hv hbody _

theorem fits_switchBody : (switchBody n visit).Fits τ (τ.costAll n.children) :=
  fits_block (fits_statementBlock hv) _ _

omit hv in
theorem map_node_partsIn (n : Node) (f : Field) :
    (n.partsIn f).map (·.node) = n.childrenIn f := by
  rw [Node.partsIn, Node.childrenIn, ← n.map_node_parts, List.filter_map]
  rfl

theorem fits_caseBody : (match n.partsIn .body with
    | [] => Pure.pure ()
    | body => do
      emit " "
      statements visit body : EmitM Unit).Fits τ (τ.inField n .body) := by
  split
  · exact fits_pure _
  · have hstatements := fits_statements hv (n.partsIn .body)
    rw [map_node_partsIn] at hstatements
    exact (fits_emit _).after fun _ => hstatements

theorem fits_switchCase : (switchCase n visit).Fits τ (τ.costAll n.children) := by
  have hbody := fits_caseBody (τ := τ) hv
  refine Fits.mono ?_ (τ.inField_add_le n (f := .value) (g := .body) (by decide))
  unfold switchCase
  cases hvalue : n.part? .value with
  | some value =>
    refine (fits_emit _).after fun _ => (fits_visit_part hv hvalue _).bind fun _ => ?_
    exact (fits_emit _).after fun _ => fits_indented hbody
  | none => exact (fits_emit _).after fun _ => (fits_indented hbody).mono (Nat.le_add_left ..)

theorem fits_labeledStatement : (labeledStatement n visit).Fits τ (τ.costAll n.children) :=
  .need fun _ hbody => (fits_visit_part hv hbody _).mono (τ.inField_le n _)

theorem fits_clause (f : Field) : (match n.part? f with
    | some clause => do
      emit " "
      visit clause {}
    | none => Pure.pure () : EmitM Unit).Fits τ (τ.inField n f) := by
  cases hp : n.part? f with
  | none => exact fits_pure _
  | some clause => exact (fits_emit _).after fun _ => fits_visit_part hv hp _

theorem fits_tryStatement : (tryStatement n visit).Fits τ (τ.costAll n.children) := by
  refine Fits.mono ?_ (τ.inField_add_add_le n (f := .body) (g := .handler) (k := .finalizer)
    (by decide))
  refine (fits_emit _).after fun _ => .need fun body hbody => ?_
  refine (fits_bracedBody (fits_visit_part hv hbody)).bind fun _ => ?_
  exact (fits_clause hv .handler).bind fun _ =>
    (fits_clause hv .finalizer).before fun _ => fits_pure _

theorem fits_catchClause : (catchClause n visit).Fits τ (τ.costAll n.children) := by
  have hbody : (do bracedBody visit (← need n .body) : EmitM Unit).Fits τ (τ.inField n .body) :=
    .need fun body hbody => fits_bracedBody (fits_visit_part hv hbody)
  refine Fits.mono ?_ (τ.inField_add_le n (f := .parameter) (g := .body) (by decide))
  refine Fits.inScope (Fits.options (fun o => ?_) fun o a => rfl) _
  refine (fits_emit _).after fun _ => ?_
  split
  · rename_i param hparam
    refine (fits_catchParameter (fits_visit_part hv hparam)).bind fun _ => ?_
    exact (fits_emit _).after fun _ => hbody
  · exact (fits_emit _).after fun _ => hbody.mono (Nat.le_add_left ..)

theorem fits_finallyClause : (finallyClause n visit).Fits τ (τ.costAll n.children) := by
  refine (fits_emit _).after fun _ => .need fun body hbody => ?_
  exact (fits_bracedBody (fits_visit_part hv hbody)).mono (τ.inField_le n _)

theorem fits_throwStatement : (throwStatement n visit).Fits τ (τ.costAll n.children) := by
  refine (fits_emit _).after fun _ => .needFirst fun value rest hparts => ?_
  exact (fits_visit_first hv hparts _).before fun _ => fits_ensureTerminator

end Statements

section Loops

variable (hv : ∀ p c, (visit p c).Fits τ (τ.spent p.node c))
include hv

/-- A clause is emitted as it is or, for a statement, as the expression in it. -/
theorem fits_forClause (f : Field) : (forClause visit (n.part? f)).Fits τ (τ.inField n f) := by
  unfold forClause
  split
  · rename_i clause hclause
    obtain ⟨p, hp, hclause⟩ := Option.bind_eq_some_iff.mp hclause
    have hcost : (visit clause {}).Fits τ (τ.inField n f) := by
      refine Fits.mono ?_ (Tariff.cost_part?_le hp)
      unfold Part.forClause? at hclause
      split at hclause
      · cases hclause
      · rename_i hkind
        exact fits_visit_of_mem hv (List.mem_of_mem_head? hclause) (by rw [hkind]; rfl) _
      · cases hclause
        exact fits_visit hv clause _
    exact hcost.before fun _ => fits_ensureTerminator.after fun _ => fits_emit _
  · exact ((fits_emit _).after fun _ => fits_emit _).mono (Nat.zero_le _)

omit hv in
theorem map_node_partsOf (d : Part n) (kind : Kind) :
    (d.partsOf kind).map (·.node) = d.node.childrenOf kind := by
  rw [Part.partsOf, Node.childrenOf, ← d.map_node_parts, List.filter_map]
  rfl

/-- Between two variables there is a separation. -/
theorem fits_forDeclaration {d : Part n} (hd : d.node.kind.isDeclaration = true) :
    (forDeclaration visit d).Fits τ (τ.cost d.node +
      ((d.node.childrenOf .variableDeclarator).length - 1) * τ.separation) := by
  have hplain : d.node.kind.hasMembers = false := by
    unfold Kind.isDeclaration at hd
    split at hd
    · rename_i hkind
      rw [hkind]
      rfl
    · rename_i hkind
      rw [hkind]
      rfl
    · cases hd
  have hle : τ.own d.node + τ.costAll (d.node.childrenOf .variableDeclarator) ≤
      τ.cost d.node := by
    have hsublist := Tariff.costAll_le_of_sublist (τ := τ)
      (List.filter_sublist (p := (·.kind = .variableDeclarator)) (l := d.node.children))
    rw [Tariff.cost_eq, Tariff.within_eq τ hplain]
    unfold Node.childrenOf
    omega
  rw [← map_node_partsOf] at hle ⊢
  refine Fits.mono (Fits.around (B := τ.costAll ((d.partsOf .variableDeclarator).map (·.node)) +
    (((d.partsOf .variableDeclarator).map (·.node)).length - 1) * τ.separation) ?_ _) (by omega)
  split
  · exact fits_pure _
  · rename_i first rest hparts
    rw [hparts, List.map_cons, Tariff.costAll_cons, List.length_cons, Nat.add_sub_cancel,
      List.length_map, Nat.add_assoc]
    refine (fits_visit hv first _).liftM.bind fun _ => ?_
    refine Fits.mono (fits_forM rest _ (fun p => τ.separation + τ.cost p.node) fun p _ =>
      fits_separate.bind fun _ => (fits_visit hv p _).liftM) ?_
    have hseparations : (rest.map fun _ => τ.separation).sum = rest.length * τ.separation := by simp
    rw [List.sum_map_add, hseparations, Tariff.costAll_eq_sum, List.map_map, Nat.add_comm]
    exact Nat.le_refl _

/-- The head of a loop. -/
theorem fits_forHead (hkind : n.kind = .forStatement) : (forHead n visit).Fits τ
    (τ.inField n .initializer + n.separations * τ.separation +
      (τ.inField n .condition + τ.inField n .increment)) := by
  have hclauses : (do
      forClause visit (n.part? .condition)
      commaSeparated visit {} (n.partsIn .increment) : Script true Unit).Fits τ
        (τ.inField n .condition + τ.inField n .increment) := by
    refine (fits_forClause hv .condition).liftM.bind fun _ => ?_
    have hincrement := fits_commaSeparated hv {} (n.partsIn .increment)
    rw [map_node_partsIn] at hincrement
    exact hincrement.liftM
  unfold forHead
  split
  · rename_i d hd
    obtain ⟨hpart, hdeclaration⟩ := Option.filter_eq_some_iff.mp hd
    have hcount : n.separations = (d.node.childrenOf .variableDeclarator).length - 1 := by
      have hchild : (n.child? .initializer).filter (·.kind.isDeclaration) = some d.node :=
        Option.filter_eq_some_iff.mpr ⟨Node.child?_of_part? hpart, hdeclaration⟩
      rw [Node.separations, if_pos hkind, Node.headDeclarators, hchild]
      rfl
    have hle := Tariff.cost_part?_le (τ := τ) hpart
    rw [hcount]
    refine Fits.bind ((fits_forDeclaration hv hdeclaration).mono (by omega)) fun _ => ?_
    exact fits_ensureTerminator.after fun _ => (fits_emit _).after fun _ => hclauses
  · refine Fits.bind ?_ fun _ => hclauses
    exact (fits_forClause hv .initializer).liftM.mono (Nat.le_add_right ..)

theorem fits_forStatement (hkind : n.kind = .forStatement) :
    (forStatement n visit).Fits τ (n.separations * τ.separation + τ.costAll n.children) := by
  have hsum : ([.initializer, .condition, .increment, .body].map (τ.inField n)).sum ≤ _ :=
    τ.sum_inField_le n (by decide)
  refine (fits_emit _).after fun _ => ?_
  refine Fits.mono ((fits_forHead hv hkind).asHead.bind fun _ => (fits_emit _).after fun _ =>
    .need fun body hbody => fits_bracedBody (fits_visit_part hv hbody)) ?_
  simp only [List.map_cons, List.map_nil, List.sum_cons, List.sum_nil] at hsum
  omega

end Loops

end Emit

open Script EmitM Emit

variable {τ : Tariff}

namespace Tariff

theorem within_le_content {n : Node} (hmethod : n.kind ≠ .methodDefinition) (context : Context) :
    n.separations * τ.separation + τ.within n ≤ τ.content n context := by
  have haccessor : n.accessor? = none := by simp [Node.accessor?, hmethod]
  simp only [content, haccessor, extra, Option.isSome_none, Bool.false_eq_true, if_false]
  omega

theorem membersAll_le_within {n : Node} (hkind : n.kind = .object) :
    τ.membersAll n.children ≤ τ.within n := by
  have hle := τ.membersAll_le n.children
  have hbelow : τ.below n = τ := by simp [below, hkind, Kind.isClass]
  rw [within, hbelow]
  split <;> omega

end Tariff

/-- A rule keeps to what the children may be charged, unless it emits members, a method or the head
of a loop. -/
theorem fits_rule_of_plain {n : Node} {rule : Rule} (hrule : rule? n.kind = some rule)
    {visit : Visit n} (hv : ∀ p c, (visit p c).Fits τ (τ.spent p.node c)) (context : Context)
    (hmembers : n.kind.hasMembers = false) (hmethod : n.kind ≠ .methodDefinition)
    (hfor : n.kind ≠ .forStatement) : (rule n visit context).Fits τ (τ.costAll n.children) := by
  -- One case for each kind; the kinds that no rule emits fall away with `hrule`.
  cases hkind : n.kind
  all_goals rw [hkind] at hrule; cases hrule
  case methodDefinition => exact absurd hkind hmethod
  case forStatement => exact absurd hkind hfor
  case classDeclaration | object => simp [hkind, Kind.hasMembers, Kind.isClass] at hmembers
  case program => exact fits_program hv
  case statementBlock => exact fits_statementBlock hv
  case expressionStatement => exact fits_expressionStatement hv
  case emptyStatement => exact fits_pure _
  case lexicalDeclaration | variableDeclaration => exact fits_declaration hv
  case variableDeclarator => exact fits_declarator hv context
  case objectPattern => exact fits_objectPattern hv
  case arrayPattern => exact fits_arrayPattern hv
  case pairPattern => exact fits_pairPattern hv
  case shorthandPattern | shorthandProperty => exact (fits_shorthandProperty n).free
  case objectAssignmentPattern => exact fits_unsupported n _
  case assignmentPattern => exact fits_defaultValue hv context
  case restPattern | spreadElement => exact fits_spread hv context
  case identifier => exact (fits_identifier n context).free
  case propertyIdentifier | privatePropertyIdentifier => exact (fits_emit _).free
  case computedPropertyName => exact fits_computedName hv
  case thisValue | superValue | trueValue | falseValue | nullValue | undefinedValue =>
    exact (fits_emit _).free
  case number => exact (fits_emitChars _).free
  case string => exact (fits_stringText n _).free
  case regex => exact (fits_regexLiteral n).free
  case templateString => exact fits_template hv
  case binaryExpression => exact fits_binary hv context
  case assignmentExpression => exact fits_assignment hv
  case augmentedAssignment => exact fits_augmentedAssignment hv
  case ternaryExpression => exact fits_conditional hv
  case unaryExpression => exact fits_unary hv context
  case updateExpression => exact fits_update hv
  case sequenceExpression => exact fits_commaSeparated_parts hv _
  case yieldExpression => exact fits_yielded hv
  case awaitExpression => exact fits_awaited hv
  case callExpression => exact fits_call hv context
  case newExpression => exact fits_construction hv context
  case arguments => exact fits_arguments hv
  case memberExpression => exact fits_member hv context
  case subscriptExpression => exact fits_subscriptExpression hv
  case functionDeclaration | generatorDeclaration => exact fits_functionDeclaration hv
  case function | functionExpression | generatorFunction | arrowFunction =>
    exact fits_functionNode hv _ _
  case classBody => exact fits_classBody hv
  case fieldDefinition => exact fits_fieldDefinition hv
  case pair => exact fits_pair hv
  case array => exact fits_arrayLiteral hv
  case elision => exact (fits_hole context).free
  case returnStatement => exact fits_returnStatement hv
  case ifStatement => exact fits_ifStatement hv
  case elseClause => exact fits_elseClause hv
  case whileStatement => exact fits_whileStatement hv
  case doStatement => exact fits_doStatement hv
  case forInStatement => exact fits_forInStatement hv
  case switchStatement => exact fits_switchStatement hv
  case switchBody => exact fits_switchBody hv
  case switchCase | switchDefault => exact fits_switchCase hv
  case breakStatement | continueStatement => exact (fits_jump n _).free
  case labeledStatement => exact fits_labeledStatement hv
  case tryStatement => exact fits_tryStatement hv
  case catchClause => exact fits_catchClause hv
  case finallyClause => exact fits_finallyClause hv
  case throwStatement => exact fits_throwStatement hv
  case importStatement => exact (fits_importStatement n).free
  case exportStatement => exact fits_exportStatement hv

/-- Each rule keeps to what the content of its node may be charged. -/
theorem fits_rule {n : Node} {rule : Rule} (hrule : rule? n.kind = some rule) {visit : Visit n}
    (hv : ∀ (τ : Tariff) p c, (visit p c).Fits τ (τ.spent p.node c)) (context : Context) :
    (rule n visit context).Fits τ (τ.content n context) := by
  by_cases hmethod : n.kind = .methodDefinition
  · rw [hmethod] at hrule
    cases hrule
    apply (fits_method (hv τ) context).mono
    rw [Tariff.content, Tariff.within_eq τ (by rw [hmethod]; rfl)]
    split
    · exact Nat.le_refl 0
    · omega
  by_cases hclass : n.kind = .classDeclaration
  · rw [hclass] at hrule
    cases hrule
    refine (fits_classDeclaration (hv τ.inClass)).mono ?_
    have hchildren := τ.costAll_inClass_le_within n
    have hle := Tariff.within_le_content (τ := τ) hmethod context
    omega
  have hle := Tariff.within_le_content (τ := τ) hmethod context
  by_cases hobject : n.kind = .object
  · rw [hobject] at hrule
    cases hrule
    refine (fits_objectLiteral (hv τ)).mono ?_
    have hmembers := Tariff.membersAll_le_within (τ := τ) hobject
    omega
  have hplain : n.kind.hasMembers = false := by
    have hclass : n.kind.isClass = false := by
      unfold Kind.isClass
      split
      · exact absurd ‹_› hclass
      · rename_i hkind
        rw [hkind] at hrule
        cases hrule
      · rfl
    simp [Kind.hasMembers, hclass, hobject]
  rw [Tariff.within_eq τ hplain] at hle
  by_cases hfor : n.kind = .forStatement
  · rw [hfor] at hrule
    cases hrule
    exact (fits_forStatement (hv τ) hfor).mono hle
  have hchildren := fits_rule_of_plain hrule (hv τ) context hplain hmethod hfor
  exact hchildren.mono (Nat.le_trans (Nat.le_add_left ..) hle)

theorem fits_emitNode (τ : Tariff) (n : Node) (context : Context) :
    (emitNode n context).Fits τ (τ.spent n context) := by
  -- The parts of a node weigh less than the node.
  induction hw : n.weight using Nat.strongRecOn generalizing τ n context with
  | ind w ih =>
    rw [emitNode]
    split
    · exact fits_fail _
    · rename_i rule hrule
      refine Fits.around (fits_rule hrule (fun τ p c => ?_) context) _
      exact ih _ (hw ▸ p.smaller) τ p.node c rfl

theorem fits_emitProgram (τ : Tariff) (root : Node) : (emitProgram root).Fits τ (τ.cost root) := by
  have hroot := (fits_emitNode τ root {}).mono (τ.spent_le_cost root {})
  refine (fits_emit _).after fun _ => Fits.options (fun o => ?_) fun o a => rfl
  split
  · exact (fits_emit _).after fun _ => hroot
  · exact hroot

end EcmaPhp
