import EcmaPhp.Proofs.Soundness.Statement
import EcmaPhp.Proofs.Splices

/-! What can come of a program: a text, or the refusal of one of its nodes. -/
namespace EcmaPhp
open Script
open Failure (Refuses)

open Emit in
/-- The rule of a complete node is sound where there is a scope, which a program opens itself. -/
theorem sound_rule {P : Location → Prop} {k : Ground} {n : Node} {visit : Visit n}
    (hn : n.Complete P) (hv : Visit.Sound P visit) (hk : n.kind ≠ .program → k.inScope = true)
    {context : Context} (hfits : n.Fits context k) :
    match rule? n.kind with
    | some rule => (rule n visit context).Sound (Refuses P) k
    | none => True := by
  by_cases hprogram : n.kind = .program
  · rw [hprogram]
    exact sound_program hn hv hprogram
  have hk := hk hprogram
  have hparts (hholds : n.kind.holdsMethods = false) (context : Context) :
      (commaSeparated visit context n.parts).Sound (Refuses P) k :=
    sound_commaSeparated hv hk (hn.placed_parts hholds)
  cases hkind : n.kind with
  | program => exact absurd hkind hprogram
  | statementBlock => exact sound_statements hv hk (hn.placed_parts (by rw [hkind]; rfl))
  | expressionStatement => exact sound_expressionStatement hn hv hk hkind
  | lexicalDeclaration => exact sound_declaration hn hv hk (by rw [hkind]; rfl)
  | variableDeclaration => exact sound_declaration hn hv hk (by rw [hkind]; rfl)
  | variableDeclarator => exact sound_declarator hn hv hk hkind context
  | objectPattern => exact sound_padded _ _ _ (hparts (by rw [hkind]; rfl) _)
  | arrayPattern => exact sound_arrayPattern hn hv hk hkind
  | pairPattern => exact sound_pairPattern hn hv hk hkind
  | shorthandPattern => simp [rule?, shorthandProperty]
  | shorthandProperty => simp [rule?, shorthandProperty]
  | objectAssignmentPattern => exact Node.Refused.patternDefault (.inr hkind)
  | assignmentPattern => exact sound_defaultValue hn hv hk hkind context
  | restPattern => exact sound_spread hn hv hk (by rw [hkind]; rfl) context
  | spreadElement => exact sound_spread hn hv hk (by rw [hkind]; rfl) context
  | identifier => exact sound_identifier context
  | propertyIdentifier => exact sound_emit _
  | privatePropertyIdentifier => exact sound_emit _
  | computedPropertyName => exact sound_computedName hn hv hk hkind
  | thisValue => exact sound_emit _
  | superValue => exact sound_emit _
  | trueValue => exact sound_emit _
  | falseValue => exact sound_emit _
  | nullValue => exact sound_emit _
  | undefinedValue => exact sound_emit _
  | number => exact sound_emitChars _
  | string => exact sound_stringLiteral hn hkind
  | regex => exact sound_regexLiteral hn hkind
  | templateString => exact sound_template hn hv hk hkind
  | binaryExpression => exact sound_binary hn hv hk hkind context
  | assignmentExpression => exact sound_assignment hn hv hk hkind
  | augmentedAssignment => exact sound_augmentedAssignment hn hv hk hkind
  | ternaryExpression => exact sound_conditional hn hv hk hkind
  | unaryExpression => exact sound_unary hn hv hk hkind context
  | updateExpression => exact sound_update hn hv hk hkind
  | sequenceExpression => exact hparts (by rw [hkind]; rfl) {}
  | yieldExpression => exact sound_yielded hn hv hk hkind
  | awaitExpression => exact sound_awaited hn hv hk hkind
  | callExpression => exact sound_call hn hv hk hkind context
  | newExpression => exact sound_construction hn hv hk hkind context
  | arguments =>
    have hlist := hparts (by rw [hkind]; rfl)
    simp [rule?, arguments, argumentList, hlist]
  | memberExpression => exact sound_member hn hv hk hkind context
  | subscriptExpression => exact sound_subscriptExpression hn hv hk hkind
  | functionDeclaration => exact sound_functionDeclaration hn hv (by rw [hkind]; rfl)
  | generatorDeclaration => exact sound_functionDeclaration hn hv (by rw [hkind]; rfl)
  | function => exact sound_functionExpression hn hv (by rw [hkind]; rfl)
  | functionExpression => exact sound_functionExpression hn hv (by rw [hkind]; rfl)
  | generatorFunction => exact sound_functionExpression hn hv (by rw [hkind]; rfl)
  | arrowFunction => exact sound_functionExpression hn hv (by rw [hkind]; rfl)
  | classDeclaration => exact sound_classDeclaration hn hv hk hkind
  | classBody => exact sound_classBody hn hv hk
  | methodDefinition => exact sound_method hn hv hk hkind context hfits
  | fieldDefinition => exact sound_fieldDefinition hn hv hk hkind
  | object => exact sound_objectLiteral hn hv hk
  | pair => exact sound_pair hn hv hk hkind
  | array =>
    have hlist := hparts (by rw [hkind]; rfl)
    simp [rule?, arrayLiteral, arrayBlock, hlist]
  | elision => simp [rule?, hole]
  | returnStatement => exact sound_returnStatement hn hv hk hkind
  | ifStatement => exact sound_ifStatement hn hv hk hkind
  | elseClause => exact sound_elseClause hn hv hk hkind
  | whileStatement => exact sound_whileStatement hn hv hk hkind
  | doStatement => exact sound_doStatement hn hv hk hkind
  | forStatement => exact sound_forStatement hn hv hk hkind
  | forInStatement => exact sound_forInStatement hn hv hk hkind
  | switchStatement => exact sound_switchStatement hn hv hk hkind
  | switchBody =>
    have hstatements := sound_statements hv hk (hn.placed_parts (by rw [hkind]; rfl))
    simp [rule?, switchBody, hstatements]
  | switchCase => exact sound_switchCase hn hv hk (by rw [hkind]; rfl)
  | switchDefault => exact sound_switchCase hn hv hk (by rw [hkind]; rfl)
  | breakStatement => exact sound_jump _
  | continueStatement => exact sound_jump _
  | labeledStatement => exact sound_labeledStatement hn hv hk hkind
  | tryStatement => exact sound_tryStatement hn hv hk hkind
  | catchClause => exact sound_catchClause hn hv hkind
  | finallyClause => exact sound_finallyClause hn hv hk hkind
  | throwStatement => exact sound_throwStatement hn hv hk hkind
  | importStatement => exact sound_importStatement hn hkind
  | exportStatement => exact sound_exportStatement hn hv hk hkind
  | _ => trivial

theorem sound_emitNode {P : Location → Prop} {k : Ground} {n : Node} {context : Context}
    (hn : n.Complete P) (hk : n.kind ≠ .program → k.inScope = true) (hfits : n.Fits context k) :
    (emitNode n context).Sound (Refuses P) k := by
  -- The parts of a node weigh less than the node.
  induction hw : n.weight using Nat.strongRecOn generalizing n context k with
  | ind w ih =>
    have hv : Visit.Sound P fun (p : Part n) c => emitNode p.node c := fun p c k hk hp hfits =>
      ih _ (hw ▸ p.smaller) hp (fun _ => hk) hfits rfl
    have hrule := sound_rule hn hv hk hfits
    rw [emitNode]
    split
    · rename_i hnone
      exact Node.Refused.kind hnone
    · rename_i rule hsome
      rw [hsome] at hrule
      exact sound_around _ _ hrule

theorem sound_emitProgram {P : Location → Prop} {k : Ground} {root : Node} (hroot : root.Complete P)
    (hkind : root.kind = .program) : (emitProgram root).Sound (Refuses P) k := by
  have hnode : (emitNode root {}).Sound (Refuses P) k :=
    sound_emitNode hroot (fun hne => absurd hkind hne) (Node.fits_of_ne (by simp [hkind]) _ _)
  simp only [emitProgram, sound_bind, sound_emit, sound_getOptions, true_and]
  intro _ _ options _
  split <;> simp [hnode]

theorem Failure.Refuses.cases {P : Location → Prop} {failure : Failure} (h : failure.Refuses P) :
    (∃ n reason, failure = .unsupported n reason ∧ n.Refused reason) ∨
      ∃ n, failure = .missingField n .name ∧ n.kind = .importSpecifier ∧ P n.location := by
  unfold Refuses at h
  split at h
  · exact .inl ⟨_, _, rfl, h⟩
  · exact .inr ⟨_, rfl, h⟩
  · cases h

/-- Without faults the result of a program is that of its emission. -/
theorem result_toPhp {options : Options} {source : String} {tree : Concrete}
    (h : tree.firstFault? = none) :
    (toPhp options source tree).result =
      match (emitProgram (.ofConcrete (Text.Utf8.encode source.toList) tree)).run
          (emissionEnv options source tree) {} with
      | .ok _ s => .ok (String.ofList s.output.text)
      | .error failure _ => .error failure := by
  have hparse : parse sourceLanguage source tree =
      .ok (.ofConcrete (Text.Utf8.encode source.toList) tree) := by
    simp [parse, Concrete.failure?, h]
  simp only [toPhp, hparse, emitTree, emissionEnv]
  split <;> simp_all

/-- A program of the grammar has a text, or it is refused because of a construct that has no
counterpart; only an import specifier that is named by the keyword `default` can fail for lack of a
name. On the way every declaration finds its names and a scope, and every insertion its point. -/
theorem toPhp_text_or_refusal (options : Options) (source : String) (tree : Concrete)
    (h : tree.Complete (Text.Utf8.encode source.toList)) :
    ((∃ text, (toPhp options source tree).result = .ok text) ∨
      (∃ n reason, (toPhp options source tree).result = .error (.unsupported n reason) ∧
        n.Refused reason) ∨
      ∃ n, (toPhp options source tree).result = .error (.missingField n .name) ∧
        n.kind = .importSpecifier ∧ ∃ c ∈ tree.preorder, c.namesDefault = true ∧
          c.location (Text.Utf8.encode source.toList) = n.location) ∧
    ∀ x ∈ emissionSteps options source tree, x.Sound := by
  let P (l : Location) : Prop := ∃ c ∈ tree.preorder, c.namesDefault = true ∧
    c.location (Text.Utf8.encode source.toList) = l
  have hroot : (Node.ofConcrete (Text.Utf8.encode source.toList) tree).Complete P :=
    Node.complete_ofConcrete h.named h.shaped fun c hc hdefault => ⟨c, hc, hdefault, rfl⟩
  have hsound := sound_emitProgram (k := {}) hroot (ofConcrete_program _ h.kind).1
  have hsafe : Script.Safe (Failure.Refuses P) (emissionEnv options source tree) _ {} :=
    hsound.safe ⟨Nat.zero_le _, fun hscope => by cases hscope⟩
  refine ⟨?_, hsafe.1⟩
  rw [result_toPhp h.faultless]
  cases hrun : (emitProgram (.ofConcrete (Text.Utf8.encode source.toList) tree)).run
      (emissionEnv options source tree) {} with
  | ok _ s => exact .inl ⟨_, rfl⟩
  | error failure s =>
    rcases (hsafe.2 failure s hrun).cases with
      ⟨n, reason, rfl, hrefused⟩ | ⟨n, rfl, hkind, hlocation⟩
    · exact .inr (.inl ⟨n, reason, rfl, hrefused⟩)
    · exact .inr (.inr ⟨n, rfl, hkind, hlocation⟩)

open Concrete in
/-- The import of what a module gives by default, under a name. -/
def defaultTree : Concrete :=
  branch "program" 0 35 none
    [branch "import_statement" 0 35 none
      [token "import" 0 6,
        branch "import_clause" 7 23 none
          [branch "named_imports" 7 23 none
            [token "\x7b" 7 8,
              branch "import_specifier" 9 21 none
                [{ token "default" 9 16 with field := some "name" }, token "as" 17 19,
                  branch "identifier" 20 21 (some "alias") []],
              token "\x7d" 22 23]],
        token "from" 24 28,
        branch "string" 29 34 (some "source")
          [token "'" 29 30, branch "string_fragment" 30 33 none [], token "'" 33 34],
        token ";" 34 35]]

/-- A program fails because a node lacks a part. -/
def lacksField : Except Failure String → Bool
  | .error (.missingField _ _) => true
  | _ => false

def defaultSource : String := "import \x7b default as d \x7d from './m';"

theorem toPhp_text_or_refusal_default :
    defaultTree.Complete (Text.Utf8.encode defaultSource.toList) ∧
      ∃ n, (toPhp {} defaultSource defaultTree).result = .error (.missingField n .name) ∧
        n.kind = .importSpecifier ∧ ∃ c ∈ defaultTree.preorder, c.namesDefault = true ∧
          c.location (Text.Utf8.encode defaultSource.toList) = n.location := by
  have hcomplete : defaultTree.Complete (Text.Utf8.encode defaultSource.toList) := by
    decide +kernel
  have hlacks : lacksField (toPhp {} defaultSource defaultTree).result = true := by decide +kernel
  refine ⟨hcomplete, ?_⟩
  rcases (toPhp_text_or_refusal {} defaultSource defaultTree hcomplete).1 with
    ⟨text, htext⟩ | ⟨n, reason, hrefused, -⟩ | hfails
  · simp [htext, lacksField] at hlacks
  · simp [hrefused, lacksField] at hlacks
  · exact hfails

end EcmaPhp
