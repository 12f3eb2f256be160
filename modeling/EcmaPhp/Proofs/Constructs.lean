import EcmaPhp.Proofs.Script.Jumps
import EcmaPhp.Proofs.Visits

/-! Which rules write a loop or a choice: those of the loops and choices of the source. -/
namespace EcmaPhp
open Script EmitM

/-- No keyword of a loop or a choice begins otherwise. -/
theorem Construct.ofKeyword?_cons {c : Char} (cs : List Char) (h : c ∉ ['w', 'd', 'f', 's']) :
    Construct.ofKeyword? (c :: cs) = none := by
  simp only [List.mem_cons, List.not_mem_nil, or_false, not_or] at h
  obtain ⟨hw, hd, hf, hs⟩ := h
  simp [Construct.ofKeyword?, Ne.symm hw, Ne.symm hd, Ne.symm hf, hs]

/-- The construct that a node of a kind is in the source. -/
def Kind.construct? : Kind → Option Construct
  | .whileStatement | .doStatement | .forStatement | .forInStatement => some .loop
  | .switchStatement => some .choice
  | _ => none

namespace Script

variable {h : Bool} {α β : Type} {n : Node}

/-- A script that begins with a block. -/
def opensBlock {h : Bool} {α : Type} : Script h α → Bool
  | .within (.block _ _ _) _ _ | .head _ _ => true
  | _ => false

/-- A script that writes no text before it asks anything or opens a frame. -/
def Mute {h : Bool} {α : Type} : Script h α → Prop
  | .act (.edit (.text _)) _ => False
  | .act (.register _) next => next.Mute
  | _ => True

theorem Mute.bind {m : Script h α} {f : α → Script h β} (hm : m.Mute) (hf : ∀ a, (f a).Mute) :
    (m >>= f).Mute := by
  induction m with
  | pure a => exact hf a
  | act x next ih =>
    cases x with
    | register n => exact ih hm hf
    | edit e =>
      cases e with
      | text cs => cases hm
      | _ => trivial
    | _ => trivial
  | _ => trivial

theorem Mute.construct? {m : Script h α} (hm : m.Mute) : m.construct? = none := by
  induction m with
  | act x next ih =>
    cases x with
    | register n => exact ih hm
    | edit e =>
      cases e with
      | text cs => cases hm
      | _ => rfl
    | _ => rfl
  | _ => rfl

theorem mute_forM {γ : Type} (xs : List γ) (f : γ → Script h PUnit) (hf : ∀ x, (f x).Mute) :
    (forM xs f).Mute := by
  induction xs with
  | nil => trivial
  | cons x rest ih =>
    rw [List.forM_cons]
    exact (hf x).bind fun _ => ih

@[simp]
theorem construct?_pure (a : α) : (Pure.pure a : Script h α).construct? = none := rfl

@[simp]
theorem construct?_unsupported (reason : String) :
    (EmitM.unsupported n reason : EmitM α).construct? = none := rfl

@[simp]
theorem construct?_fail_bind (e : Failure) (f : α → EmitM β) :
    (EmitM.fail e >>= f).construct? = none := rfl

@[simp]
theorem construct?_unsupported_bind (reason : String) (f : α → EmitM β) :
    (EmitM.unsupported n reason >>= f).construct? = none := rfl

@[simp]
theorem construct?_emit (text : String) : (emit text : Script h Unit).construct? = none := rfl

@[simp]
theorem construct?_emitChars (text : List Char) :
    (emitChars text : Script h Unit).construct? = none := rfl

theorem construct?_emitChars_bind (text : List Char) (f : Unit → Script h β) :
    (emitChars text >>= f).construct? = none ↔
      Construct.ofKeyword? text = none ∨ (f ()).opensBlock = false := by
  have hbind : emitChars text >>= f = .act (.edit (.text text)) (f ()) := rfl
  rw [hbind]
  cases f () with
  | within fr body next => cases fr <;> simp [construct?, keyword?, opensBlock]
  | _ => simp [construct?, keyword?, opensBlock]

@[simp]
theorem construct?_emit_bind (text : String) (f : Unit → Script h β) :
    (emit text >>= f).construct? = none ↔
      Construct.ofKeyword? text.toList = none ∨ (f ()).opensBlock = false :=
  construct?_emitChars_bind text.toList f

@[simp]
theorem construct?_getScopes_bind (f : Scopes → EmitM β) :
    (getScopes >>= f).construct? = none := rfl

@[simp]
theorem construct?_getOptions_bind (f : Options → EmitM β) :
    (getOptions >>= f).construct? = none := rfl

@[simp]
theorem construct?_resolve_bind (f : Option Node → EmitM β) :
    (resolve n >>= f).construct? = none := rfl

@[simp]
theorem construct?_inProgramScope_bind (f : Bool → EmitM β) :
    (inProgramScope >>= f).construct? = none := rfl

@[simp]
theorem construct?_register_bind (m : Node) (f : Unit → EmitM β) :
    (register m >>= f).construct? = (f ()).construct? := rfl

@[simp]
theorem construct?_note_bind (e : Event) (f : Unit → EmitM β) :
    (note e >>= f).construct? = none := rfl

@[simp]
theorem construct?_within (fr : Frame) (m : Script h α) :
    (EmitM.within fr m).construct? = none := rfl

@[simp]
theorem construct?_need_bind (f : Field) (k : Part n → EmitM β) :
    (need n f >>= k).construct? = none ↔ ∀ p, n.part? f = some p → (k p).construct? = none := by
  rw [need]
  cases n.part? f with
  | none => simp
  | some p =>
    change (k p).construct? = none ↔ _
    simp

@[simp]
theorem construct?_needFirst_bind (k : Part n → EmitM β) :
    (needFirst n >>= k).construct? = none ↔
      ∀ p, n.parts.head? = some p → (k p).construct? = none := by
  rw [needFirst]
  cases n.parts with
  | nil => simp
  | cons p rest =>
    change (k p).construct? = none ↔ _
    simp

@[simp]
theorem construct?_ite (c : Prop) [Decidable c] (m m' : Script h α) :
    (if c then m else m').construct? = none ↔
      (c → m.construct? = none) ∧ (¬ c → m'.construct? = none) := by
  split <;> simp_all

/-- Other words than the keywords of loops and choices may stand before a block. -/
theorem construct?_word_bind (text : String) (f : Unit → Script h β)
    (htext : Construct.ofKeyword? text.toList = none) : (emit text >>= f).construct? = none :=
  (construct?_emit_bind text f).mpr (.inl htext)

@[simp]
theorem opensBlock_emit_bind (text : String) (f : Unit → Script h β) :
    (emit text >>= f).opensBlock = false := rfl

@[simp]
theorem opensBlock_ite (c : Prop) [Decidable c] (m m' : Script h α) :
    (if c then m else m').opensBlock = false ↔
      (c → m.opensBlock = false) ∧ (¬ c → m'.opensBlock = false) := by
  split <;> simp_all

end Script

namespace Emit

variable {n : Node} {visit : Visit n}

theorem mute_hoist (statement : Node) : (hoist statement).Mute := by
  unfold hoist
  dsimp only
  split
  · split <;> trivial
  · trivial

theorem mute_registerTarget (target : Node) : (registerTarget target).Mute := by
  unfold registerTarget
  split
  · trivial
  · split <;> trivial

section Visits

variable (hframed : visit.Framed)
include hframed

theorem mute_visit (p : Part n) (c : Context) : (visit p c).Mute := by
  rcases hframed p c with ⟨parens, m, heq⟩ | ⟨e, heq⟩
  · rw [heq]
    trivial
  · rw [heq]
    trivial

variable {β : Type} (p : Part n) (c : Context) (f : Unit → EmitM β)

/-- What follows a part does not matter. -/
theorem mute_visit_bind : (visit p c >>= f).Mute := by
  rcases hframed p c with ⟨parens, m, heq⟩ | ⟨e, heq⟩
  · rw [heq]
    trivial
  · rw [heq]
    trivial

theorem opensBlock_visit_bind : (visit p c >>= f).opensBlock = false := by
  rcases hframed p c with ⟨parens, m, heq⟩ | ⟨e, heq⟩
  · rw [heq]
    rfl
  · rw [heq]
    rfl

theorem opensBlock_visit : (visit p c).opensBlock = false := by
  rcases hframed p c with ⟨parens, m, heq⟩ | ⟨e, heq⟩
  · rw [heq]
    rfl
  · rw [heq]
    rfl

theorem mute_key_bind (k : Part n) : (key visit k >>= f).Mute := by
  unfold key
  split
  · trivial
  · exact mute_visit_bind hframed k {} f

theorem mute_separated (separator : String) (parts : List (Part n)) :
    (separated separator (parts.map fun p => visit p c)).Mute := by
  match parts with
  | [] => trivial
  | [p] => exact mute_visit hframed p c
  | p :: q :: rest => exact mute_visit_bind hframed p c _

theorem mute_statements (parts : List (Part n)) : (statements visit parts).Mute :=
  (mute_forM parts _ fun p => mute_hoist p.node).bind fun _ =>
    mute_forM _ _ fun p => mute_visit hframed p {}

theorem mute_classBody : (classBody n visit).Mute := by
  refine (mute_forM _ _ fun m => ?_).bind fun _ => trivial
  unfold classMember
  split
  · trivial
  · exact mute_visit hframed m {}

end Visits

section Expressions

variable (hframed : visit.Framed) (context : Context)
include hframed

theorem construct?_operand_bind {β : Type} (alone : Bool) (o : Operand n) {f : Unit → EmitM β}
    (hf : (f ()).opensBlock = false) : (operand visit alone o >>= f).construct? = none := by
  have htext (text : List Char) : (emitChars text >>= f).construct? = none :=
    (construct?_emitChars_bind text f).mpr (.inr hf)
  have hstring (text : String) : (stringText n text >>= f).construct? = none := by
    unfold stringText
    split
    · rfl
    · exact htext _
  cases o with
  | source part wasAlone => exact (mute_visit_bind hframed _ _ _).construct?
  | literal kind text =>
    by_cases hkind : kind = .string
    · subst hkind
      exact hstring text
    · rw [operand]
      · exact htext text.toList
      · exact hkind
  | emptyArray => rfl
  | method object name => rfl
  | element container index =>
    rw [operand, subscript]
    rcases hframed container {} with ⟨parens, m, heq⟩ | ⟨e, heq⟩
    · rw [heq]
      rfl
    · rw [heq]
      rfl

theorem construct?_phpCall (place : Place) (function : String) (operands : List (Operand n)) :
    (phpCall visit place function operands).construct? = none := by
  unfold phpCall
  dsimp only
  split
  · rename_i list value _ hemitted
    have hlist : list ∈ operands.map (operand visit (operands.length = 1)) := by simp [hemitted]
    obtain ⟨o, -, rfl⟩ := List.mem_map.mp hlist
    exact construct?_operand_bind hframed _ o rfl
  · simp [argumentList]

theorem construct?_inlineCall (place : Place) (callee : Part n) :
    (inlineCall n visit place callee).construct? = none := by
  unfold inlineCall
  split
  · exact (mute_visit_bind hframed _ _ _).construct?
  · simp [opensBlock_visit_bind hframed]

theorem construct?_call : (call n visit context).construct? = none := by
  unfold call refuseTemplate
  split
  · rfl
  · change (need n .function >>= _).construct? = none
    simp [construct?_inlineCall hframed]

theorem construct?_assignment : (assignment n visit).construct? = none := by
  simp only [assignment, construct?_need_bind]
  intro left _ right _
  exact ((mute_registerTarget _).bind fun _ => mute_visit_bind hframed left _ _).construct?

theorem construct?_binary : (binary n visit context).construct? = none := by
  simp [binary, construct?_phpCall hframed]

theorem construct?_unary : (unary n visit context).construct? = none := by
  simp only [unary, construct?_need_bind]
  intro argument _
  split
  · exact construct?_phpCall hframed _ _ _
  · exact construct?_phpCall hframed _ _ _
  · split
    · rfl
    · exact construct?_word_bind "(" _ (by decide)
  · simp [opensBlock_visit hframed]

theorem construct?_update : (update n visit).construct? = none := by
  simp [update, (mute_visit_bind hframed _ _ _).construct?, opensBlock_visit hframed]

end Expressions

section Statements

@[simp]
theorem construct?_identifier (context : Context) : (identifier n context).construct? = none := by
  unfold identifier
  dsimp only
  split
  · rfl
  · split <;> rfl

@[simp]
theorem construct?_stringLiteral : (stringLiteral n).construct? = none := by
  unfold stringLiteral stringText
  split <;> rfl

@[simp]
theorem construct?_modifiers_bind {β : Type} (m : Node) (f : Unit → EmitM β) :
    (modifiers m >>= f).construct? = none := by
  change (emit "public " >>= fun _ =>
    (if m.hasToken "static" then emit "static " else Pure.pure ()) >>= f).construct? = none
  exact construct?_word_bind "public " _ (by decide)

@[simp]
theorem construct?_function_bind {β : Type} (header : String) (form : FunctionForm)
    (params : Option (Part n)) (body : Part n) (f : Scope → EmitM β) :
    (function visit header form params body >>= f).construct? = none := rfl

@[simp]
theorem construct?_classDeclaration : (classDeclaration n visit).construct? = none := by
  simp only [classDeclaration, construct?_need_bind, construct?_register_bind]
  intro name _ body _
  refine construct?_word_bind _ _ ?_
  simp only [toString, String.toList_append]
  exact Construct.ofKeyword?_cons _ (by decide)

@[simp]
theorem construct?_method (context : Context) : (method n visit context).construct? = none := by
  simp only [method, construct?_need_bind]
  intro name _
  split
  · split <;> rfl
  · split
    · rfl
    · split
      · refine construct?_word_bind _ _ ?_
        simp only [toString, String.toList_append]
        exact Construct.ofKeyword?_cons _ (by decide)
      · exact construct?_modifiers_bind n _

@[simp]
theorem construct?_fieldDefinition : (fieldDefinition n visit).construct? = none := by
  simp only [fieldDefinition, construct?_need_bind]
  intro property _
  split
  · rfl
  · exact construct?_modifiers_bind n _

@[simp]
theorem construct?_finallyClause : (finallyClause n visit).construct? = none :=
  construct?_word_bind "finally " _ (by decide)

@[simp]
theorem construct?_switchCase : (switchCase n visit).construct? = none := by
  cases hvalue : n.part? .value with
  | none =>
    simp only [switchCase, hvalue]
    exact construct?_word_bind "default:" _ (by decide)
  | some value =>
    simp only [switchCase, hvalue]
    exact construct?_word_bind "case " _ (by decide)

@[simp]
theorem construct?_importStatement : (importStatement n).construct? = none := by
  unfold importStatement
  split
  · rfl
  · simp

variable (hframed : visit.Framed)
include hframed

theorem construct?_expressionStatement : (expressionStatement n visit).construct? = none := by
  unfold expressionStatement
  split
  · rfl
  · simp [(mute_visit_bind hframed _ _ _).construct?]

theorem construct?_exportStatement : (exportStatement n visit).construct? = none := by
  unfold exportStatement
  split
  · exact (mute_visit hframed _ _).construct?
  · exact construct?_word_bind "return " _ (by decide)
  · rfl

theorem construct?_rule_of_none {rule : Rule} (hrule : rule? n.kind = some rule)
    (hkind : n.kind.construct? = none) (context : Context) :
    (rule n visit context).construct? = none := by
  have hvisit (p : Part n) (c : Context) := (mute_visit hframed p c).construct?
  have hthen {β : Type} (p : Part n) (c : Context) (f : Unit → EmitM β) :=
    (mute_visit_bind hframed p c f).construct?
  have hkey {β : Type} (k : Part n) (f : Unit → EmitM β) :=
    (mute_key_bind hframed f k).construct?
  have hseparated (c : Context) (separator : String) (parts : List (Part n)) :=
    (mute_separated hframed c separator parts).construct?
  have hstatements (parts : List (Part n)) := (mute_statements hframed parts).construct?
  have hclassBody := (mute_classBody hframed).construct?
  unfold rule? at hrule
  split at hrule <;> cases hrule
  all_goals rename_i heq; simp only [heq, Kind.construct?, reduceCtorEq] at hkind
  -- What is left begins with a visit, a delimiter or a word that opens neither.
  all_goals simp [hvisit, hthen, hkey, hseparated, hstatements, hclassBody,
    Construct.ofKeyword?_cons, construct?_expressionStatement hframed,
    construct?_exportStatement hframed, construct?_assignment hframed, construct?_binary hframed,
    construct?_unary hframed, construct?_update hframed, construct?_call hframed, program,
    statementBlock, inScope, declaration, declarator, objectPattern, arrayPattern, padded, block,
    commaSeparated, shorthandProperty, pairPattern, defaultValue, spread, propertyName,
    computedName, numberLiteral, regexLiteral, template, augmentedAssignment, conditional, yielded,
    awaited, suspension, construction, arguments, argumentList, member, subscriptExpression,
    subscript, functionDeclaration, functionExpression, functionNode, objectLiteral, pair,
    arrayLiteral, arrayBlock, hole, returnStatement, ifStatement, elseClause, switchBody, jump,
    labeledStatement, tryStatement, catchClause, throwStatement]

end Statements

section Constructs

/-- A loop or a choice that lacks its first part is not emitted. -/
def Begins (c : Construct) (m : EmitM Unit) : Prop :=
  m.construct? = some c ∨ m.Frames (fun _ _ _ _ _ => False) false

theorem begins_whileStatement : Begins .loop (whileStatement n visit) := by
  unfold whileStatement need
  cases n.part? .condition with
  | none => exact .inr trivial
  | some test => exact .inl rfl

theorem begins_doStatement : Begins .loop (doStatement n visit) := by
  unfold doStatement need bracedBody
  cases n.part? .body with
  | none => exact .inr trivial
  | some body =>
    left
    dsimp only [Pure.pure, Bind.bind, Script.bind]
    split <;> rfl

theorem begins_forStatement : Begins .loop (forStatement n visit) := .inl rfl

theorem begins_forInStatement : Begins .loop (forInStatement n visit) := by
  unfold forInStatement need
  cases n.part? .left with
  | none => exact .inr trivial
  | some left =>
    cases n.part? .right with
    | none => exact .inr trivial
    | some right => exact .inl rfl

theorem begins_switchStatement : Begins .choice (switchStatement n visit) := by
  unfold switchStatement need
  cases n.part? .value with
  | none => exact .inr trivial
  | some value => exact .inl rfl

/-- A rule begins with the keyword of a loop or a choice just where its node is one. -/
theorem construct?_rule (hframed : visit.Framed) {rule : Rule} (hrule : rule? n.kind = some rule)
    (context : Context) : (rule n visit context).construct? = n.kind.construct? ∨
      (rule n visit context).Frames (fun _ _ _ _ _ => False) false := by
  cases hkind : n.kind.construct? with
  | none => exact .inl (construct?_rule_of_none hframed hrule hkind context)
  | some c =>
    unfold Kind.construct? at hkind
    split at hkind <;> cases hkind
    all_goals rename_i heq; rw [heq] at hrule; cases hrule
    · exact begins_whileStatement
    · exact begins_doStatement
    · exact begins_forStatement
    · exact begins_forInStatement
    · exact begins_switchStatement

end Constructs

end Emit
end EcmaPhp
