/-! The kinds of nodes in a program's tree. -/
namespace EcmaPhp

/-- A kind that an emission or scope rule speaks of, or any other by its name. -/
inductive Kind where
  | program | hashBangLine | statementBlock | expressionStatement | emptyStatement
  | lexicalDeclaration | variableDeclaration | variableDeclarator | objectPattern | arrayPattern
  | pairPattern | shorthandPattern | objectAssignmentPattern | assignmentPattern | restPattern
  | identifier | propertyIdentifier | privatePropertyIdentifier | shorthandProperty
  | computedPropertyName | thisValue | superValue | trueValue | falseValue | nullValue
  | undefinedValue | number | string | regex | templateString | templateSubstitution
  | binaryExpression | assignmentExpression | augmentedAssignment | ternaryExpression
  | unaryExpression | updateExpression | sequenceExpression | spreadElement | yieldExpression
  | awaitExpression | callExpression | newExpression | arguments | memberExpression
  | subscriptExpression | functionDeclaration | generatorDeclaration | function
  | functionExpression | generatorFunction | arrowFunction | formalParameters | classDeclaration
  | classHeritage | classBody | methodDefinition | fieldDefinition | object | pair | array
  | elision | returnStatement | ifStatement | elseClause | whileStatement | doStatement
  | forStatement | forInStatement | switchStatement | switchBody | switchCase | switchDefault
  | breakStatement | continueStatement | labeledStatement | tryStatement | catchClause
  | finallyClause | throwStatement | importStatement | importClause | namespaceImport
  | namedImports | importSpecifier | exportStatement | parenthesized
  | other (name : String)
  deriving DecidableEq, Repr

namespace Kind

/-- The name of a kind in the grammar. -/
def name : Kind → String
  | .program => "program"
  | .hashBangLine => "hash_bang_line"
  | .statementBlock => "statement_block"
  | .expressionStatement => "expression_statement"
  | .emptyStatement => "empty_statement"
  | .lexicalDeclaration => "lexical_declaration"
  | .variableDeclaration => "variable_declaration"
  | .variableDeclarator => "variable_declarator"
  | .objectPattern => "object_pattern"
  | .arrayPattern => "array_pattern"
  | .pairPattern => "pair_pattern"
  | .shorthandPattern => "shorthand_property_identifier_pattern"
  | .objectAssignmentPattern => "object_assignment_pattern"
  | .assignmentPattern => "assignment_pattern"
  | .restPattern => "rest_pattern"
  | .identifier => "identifier"
  | .propertyIdentifier => "property_identifier"
  | .privatePropertyIdentifier => "private_property_identifier"
  | .shorthandProperty => "shorthand_property_identifier"
  | .computedPropertyName => "computed_property_name"
  | .thisValue => "this"
  | .superValue => "super"
  | .trueValue => "true"
  | .falseValue => "false"
  | .nullValue => "null"
  | .undefinedValue => "undefined"
  | .number => "number"
  | .string => "string"
  | .regex => "regex"
  | .templateString => "template_string"
  | .templateSubstitution => "template_substitution"
  | .binaryExpression => "binary_expression"
  | .assignmentExpression => "assignment_expression"
  | .augmentedAssignment => "augmented_assignment_expression"
  | .ternaryExpression => "ternary_expression"
  | .unaryExpression => "unary_expression"
  | .updateExpression => "update_expression"
  | .sequenceExpression => "sequence_expression"
  | .spreadElement => "spread_element"
  | .yieldExpression => "yield_expression"
  | .awaitExpression => "await_expression"
  | .callExpression => "call_expression"
  | .newExpression => "new_expression"
  | .arguments => "arguments"
  | .memberExpression => "member_expression"
  | .subscriptExpression => "subscript_expression"
  | .functionDeclaration => "function_declaration"
  | .generatorDeclaration => "generator_function_declaration"
  | .function => "function"
  | .functionExpression => "function_expression"
  | .generatorFunction => "generator_function"
  | .arrowFunction => "arrow_function"
  | .formalParameters => "formal_parameters"
  | .classDeclaration => "class_declaration"
  | .classHeritage => "class_heritage"
  | .classBody => "class_body"
  | .methodDefinition => "method_definition"
  | .fieldDefinition => "field_definition"
  | .object => "object"
  | .pair => "pair"
  | .array => "array"
  | .elision => "elision"
  | .returnStatement => "return_statement"
  | .ifStatement => "if_statement"
  | .elseClause => "else_clause"
  | .whileStatement => "while_statement"
  | .doStatement => "do_statement"
  | .forStatement => "for_statement"
  | .forInStatement => "for_in_statement"
  | .switchStatement => "switch_statement"
  | .switchBody => "switch_body"
  | .switchCase => "switch_case"
  | .switchDefault => "switch_default"
  | .breakStatement => "break_statement"
  | .continueStatement => "continue_statement"
  | .labeledStatement => "labeled_statement"
  | .tryStatement => "try_statement"
  | .catchClause => "catch_clause"
  | .finallyClause => "finally_clause"
  | .throwStatement => "throw_statement"
  | .importStatement => "import_statement"
  | .importClause => "import_clause"
  | .namespaceImport => "namespace_import"
  | .namedImports => "named_imports"
  | .importSpecifier => "import_specifier"
  | .exportStatement => "export_statement"
  | .parenthesized => "parenthesized_expression"
  | .other name => name

/-- All kinds that have a constructor of their own. -/
def known : List Kind := [
  .program, .hashBangLine, .statementBlock, .expressionStatement, .emptyStatement,
  .lexicalDeclaration, .variableDeclaration, .variableDeclarator, .objectPattern, .arrayPattern,
  .pairPattern, .shorthandPattern, .objectAssignmentPattern, .assignmentPattern, .restPattern,
  .identifier, .propertyIdentifier, .privatePropertyIdentifier, .shorthandProperty,
  .computedPropertyName, .thisValue, .superValue, .trueValue, .falseValue, .nullValue,
  .undefinedValue, .number, .string, .regex, .templateString, .templateSubstitution,
  .binaryExpression, .assignmentExpression, .augmentedAssignment, .ternaryExpression,
  .unaryExpression, .updateExpression, .sequenceExpression, .spreadElement, .yieldExpression,
  .awaitExpression, .callExpression, .newExpression, .arguments, .memberExpression,
  .subscriptExpression, .functionDeclaration, .generatorDeclaration, .function,
  .functionExpression, .generatorFunction, .arrowFunction, .formalParameters, .classDeclaration,
  .classHeritage, .classBody, .methodDefinition, .fieldDefinition, .object, .pair, .array,
  .elision, .returnStatement, .ifStatement, .elseClause, .whileStatement, .doStatement,
  .forStatement, .forInStatement, .switchStatement, .switchBody, .switchCase, .switchDefault,
  .breakStatement, .continueStatement, .labeledStatement, .tryStatement, .catchClause,
  .finallyClause, .throwStatement, .importStatement, .importClause, .namespaceImport,
  .namedImports, .importSpecifier, .exportStatement, .parenthesized]

def ofName (name : String) : Kind := (known.find? (·.name = name)).getD (.other name)

@[simp] theorem name_ofName (s : String) : (ofName s).name = s := by
  unfold ofName
  cases h : known.find? (·.name = s) with
  | none => rfl
  | some k => simpa using List.find?_some h

/-- A function written as an expression. -/
def isFunctionExpression : Kind → Bool
  | .function | .functionExpression | .generatorFunction | .arrowFunction => true
  | _ => false

/-- A function declared by its own statement. -/
def isFunctionDeclaration : Kind → Bool
  | .functionDeclaration | .generatorDeclaration => true
  | _ => false

/-- A statement that declares variables. -/
def isDeclaration : Kind → Bool
  | .lexicalDeclaration | .variableDeclaration => true
  | _ => false

def isStringLiteral : Kind → Bool
  | .string | .templateString => true
  | _ => false

/-- A definition that binds a variable, which a closure has to capture. -/
def bindsVariable : Kind → Bool
  | .identifier | .variableDeclarator | .shorthandPattern => true
  | _ => false

/-- A kind that can be the target of destructuring. -/
def isPattern : Kind → Bool
  | .objectPattern | .arrayPattern => true
  | _ => false

/-- A list whose holes count as elements. -/
def isArray : Kind → Bool
  | .array | .arrayPattern => true
  | _ => false

end Kind
end EcmaPhp
