import EcmaPhp.Proofs.Php.Spelling
import EcmaPhp.Proofs.References
import EcmaPhp.Proofs.Scope.Evolution

/-! Expressions of operators keep their structure: what PHP reads in the output is the tree of the
source, with strings joined where both operands are known to be strings. -/
namespace EcmaPhp
open Text

/-- A text without blanks. -/
def Text.Unbroken (text : List Char) : Prop := ∀ c ∈ text, isBlank c = false

instance (text : List Char) : Decidable (Unbroken text) := List.decidableBAll _ text

theorem Text.unbroken_append {s t : String} (hs : Unbroken s.toList) (ht : Unbroken t.toList) :
    Unbroken (s ++ t).toList := by
  rw [String.toList_append]
  exact List.forall_mem_append.mpr ⟨hs, ht⟩

theorem Text.Unbroken.endsWord {text : List Char} (h : Unbroken text) (hne : text ≠ []) :
    EndsWord text := by
  obtain ⟨front, c, rfl⟩ := (List.eq_nil_or_concat' text).resolve_left hne
  exact ⟨front, c, rfl, h c (by simp)⟩

namespace Scopes

/-- Two chains that bind the same names to the same definitions. -/
def Alike (a b : Scopes) : Prop := a.map Scope.definitions = b.map Scope.definitions

namespace Alike

variable {a b : Scopes}

theorem refer (a : Scopes) (n : Node) : Alike (a.refer n) a := map_definitions_refer a n

theorem resolve?_eq (h : Alike a b) (n : Node) : a.resolve? n = b.resolve? n := by
  rw [resolve?, resolve?]
  congr 1
  funext name
  exact lookup?_eq_of_definitions name h

theorem isStringTyped_eq (h : Alike a b) (n : Node) : a.isStringTyped n = b.isStringTyped n := by
  fun_induction a.isStringTyped n with
  | case1 n ih =>
    rw [isStringTyped.eq_def b n, h.resolve?_eq n]
    simp only [ih]

theorem constant?_eq (h : Alike a b) (n : Node) :
    Builtin.constant? a n = Builtin.constant? b n := by
  rw [Builtin.constant?, Builtin.constant?, isUnbound, isUnbound, h.resolve?_eq]

end Alike

/-- What is written for a name. -/
def nameText (scopes : Scopes) (n : Node) : String :=
  if n.text = "undefined" then "null"
  else
    match Builtin.constant? scopes n, scopes.resolve? n with
    | some constant, _ => constant
    | none, none => if n.text = "arguments" then "func_get_args()" else "$" ++ n.text
    | none, some definition =>
      if definition.kind.isFunctionDeclaration then "'" ++ n.text ++ "'"
      else if definition.kind = .classDeclaration then n.text ++ "::class"
      else "$" ++ n.text

theorem endsWord_nameText (scopes : Scopes) {n : Node} (hn : Unbroken n.text.toList) :
    EndsWord (scopes.nameText n).toList := by
  have hconstants : ∀ p ∈ Builtin.globalConstants, Unbroken p.2.toList ∧ p.2.toList ≠ [] := by
    decide
  have hvariable : EndsWord ("$" ++ n.text).toList :=
    (unbroken_append (by decide) hn).endsWord (by simp)
  rw [nameText]
  split
  · exact Unbroken.endsWord (by decide) (by decide)
  · split
    · rename_i constant hconstant
      obtain ⟨hunbroken, hne⟩ := hconstants _ (Emit.mem_of_constant? hconstant)
      exact hunbroken.endsWord hne
    · split_ifs
      · exact Unbroken.endsWord (by decide) (by decide)
      · exact hvariable
    · split_ifs
      · exact (unbroken_append (unbroken_append (by decide) hn) (by decide)).endsWord (by simp)
      · exact (unbroken_append hn (by decide)).endsWord (by simp)
      · exact hvariable

/-- What is written for an operand. -/
def operandText (scopes : Scopes) (n : Node) : List Char :=
  match n.kind, n.text.toList with
  | .number, digits => Literal.number digits
  | .string, quote :: rest => Literal.string quote rest.dropLast
  | _, _ => (scopes.nameText n).toList

end Scopes

/-- The texts of names, numbers and strings, as far as operators have to rely on them. -/
inductive OperandShape : Kind → List Char → Prop where
  | name {text : List Char} (h : Unbroken text) : OperandShape .identifier text
  | numeral {c : Char} {rest : List Char} (hc : c.isDigit = true ∨ c = '.')
      (h : Unbroken (c :: rest)) : OperandShape .number (c :: rest)
  | quotation {quote : Char} {rest : List Char} (h : quote = '"' ∨ quote = '\'') :
      OperandShape .string (quote :: rest)

/-- A name, a number or a string of the source. -/
structure Node.IsOperand (n : Node) : Prop where
  located : n.isSynthetic = false
  shape : OperandShape n.kind n.text.toList

/-- An operator of the source between two parts of its node. -/
structure Node.IsBinary (n : Node) (op : Operator) (left right : Part n) : Prop where
  located : n.isSynthetic = false
  kind : n.kind = .binaryExpression
  operator : n.operator = op.symbol
  left : n.part? .left = some left
  right : n.part? .right = some right

/-- A node that is an expression of operators, with what it is made of. -/
inductive OperatorTree : Node → Type where
  | operand {n : Node} (h : n.IsOperand) : OperatorTree n
  | binary {n : Node} {op : Operator} {left right : Part n} (h : n.IsBinary op left right)
      (l : OperatorTree left.node) (r : OperatorTree right.node) : OperatorTree n

/-- The operator of PHP for one of the source. -/
def Scopes.phpOperator (scopes : Scopes) (op : Operator) (left right : Node) : Php.Operator :=
  if op = .add ∧ scopes.isStringTyped left = true ∧ scopes.isStringTyped right = true then .join
  else .same op

theorem Scopes.Alike.phpOperator_eq {a b : Scopes} (h : a.Alike b) (op : Operator)
    (left right : Node) : a.phpOperator op left right = b.phpOperator op left right := by
  simp only [phpOperator, h.isStringTyped_eq]

/-- An operand that joins strings needs parentheses beside an operator that binds tighter. -/
def Scopes.operandParens (scopes : Scopes) (op : Php.Operator) (operand : Node) : Parens :=
  if 7 < op.level ∧ operand.kind = .binaryExpression ∧ scopes.isStringTyped operand = true then
    .forced
  else .asSource

theorem Scopes.Alike.operandParens_eq {a b : Scopes} (h : a.Alike b) (op : Php.Operator)
    (operand : Node) : a.operandParens op operand = b.operandParens op operand := by
  simp only [operandParens, h.isStringTyped_eq]

namespace OperatorTree

variable {n : Node}

def operator? : OperatorTree n → Option Operator
  | operand _ => none
  | @binary _ op _ _ _ _ _ => some op

/-- The comments in an expression. -/
def comments : {n : Node} → OperatorTree n → List Comment
  | n, operand _ => n.leading ++ n.inner ++ n.trailing
  | n, binary _ l r => n.leading ++ n.inner ++ n.trailing ++ l.comments ++ r.comments

/-- The expression as PHP has it. -/
def tree (scopes : Scopes) : {n : Node} → OperatorTree n → Php.Tree
  | n, operand _ => .operand (scopes.operandText n)
  | _, @binary _ op left right _ l r =>
    .binary (scopes.phpOperator op left.node right.node) (l.tree scopes) (r.tree scopes)

/-- An operand with an operator of its own stands in parentheses where the source language needs
them, and where it would chain comparisons or equalities. -/
def OperandGrouped (tokens : TokenIndex) (op : Operator) (side : Side) (e : OperatorTree n) :
    Prop :=
  ∀ inner ∈ e.operator?,
    op.separates side inner = true ∨ op.isComparison = true ∧ inner.level = op.level →
    tokens.isParenthesized n.location = true

/-- The source has all the parentheses that the expression needs. -/
def Grouped (tokens : TokenIndex) : {n : Node} → OperatorTree n → Prop
  | _, operand _ => True
  | _, @binary _ op _ _ _ l r =>
    l.OperandGrouped tokens op .left ∧ r.OperandGrouped tokens op .right ∧
      l.Grouped tokens ∧ r.Grouped tokens

/-- The expression as it is written, with its parentheses. -/
def expr (tokens : TokenIndex) (scopes : Scopes) : {n : Node} → OperatorTree n → Parens → Php.Expr
  | n, operand _, parens => .wrap (parens.wraps tokens n) (.operand (scopes.operandText n))
  | n, @binary _ op left right _ l r, parens =>
    let outer := scopes.phpOperator op left.node right.node
    .wrap (parens.wraps tokens n) (.binary outer
      (l.expr tokens scopes (scopes.operandParens outer left.node))
      (r.expr tokens scopes (scopes.operandParens outer right.node)))

theorem tree_expr (tokens : TokenIndex) (scopes : Scopes) (e : OperatorTree n) (parens : Parens) :
    (e.expr tokens scopes parens).tree = e.tree scopes := by
  induction e generalizing parens with
  | operand h => simp [expr, tree, Php.Expr.tree]
  | binary h l r ihLeft ihRight => simp [expr, tree, Php.Expr.tree, ihLeft, ihRight]

end OperatorTree

namespace Operator

theorem symbol_eq_plus {op : Operator} : op.symbol = "+" ↔ op = .add := by
  cases op <;> decide

theorem level_eq_ten {op : Operator} : op.level = 10 ↔ op = .pow := by
  cases op <;> simp [level]

/-- Both languages order their common operators alike. -/
theorem level_same (op : Operator) :
    (Php.Operator.same op).level = if op.level < 7 then op.level else op.level + 1 := by
  cases op <;> rfl

/-- An operand that needs no parentheses in the source needs none in PHP, chains apart. -/
theorem admits_same {op inner : Operator} {side : Side}
    (hseparate : op.separates side inner = false)
    (hchain : op.isComparison = true → inner.level ≠ op.level) :
    (Php.Operator.same op).Admits side (.same inner) := by
  simp only [separates, Bool.or_eq_false_iff, Bool.and_eq_false_imp, decide_eq_false_iff_not,
    decide_eq_true_eq] at hseparate
  obtain ⟨hle, hside⟩ := hseparate
  rw [Php.Operator.Admits, level_same, level_same]
  rcases Nat.lt_or_ge op.level inner.level with hlt | hge
  · left
    split <;> split <;> omega
  · have heq : inner.level = op.level := by omega
    have hother := hside heq
    right
    refine ⟨by rw [heq], ?_⟩
    by_cases hpow : op = .pow
    · subst hpow
      cases side with
      | left => simp at hother
      | right => rfl
    · have hten : op.level ≠ 10 := fun h => hpow (level_eq_ten.mp h)
      have hcomparison : ¬ (op.level = 5 ∨ op.level = 6) := by
        intro h
        exact hchain (by simpa [isComparison] using h) heq
      cases side with
      | right => simp [hpow] at hother
      | left =>
        rw [Php.associativity, if_neg (by split <;> omega), if_neg (by split <;> omega)]

end Operator

theorem Node.IsBinary.isStringTyped_iff {n : Node} {op : Operator} {left right : Part n}
    (h : n.IsBinary op left right) (scopes : Scopes) :
    scopes.isStringTyped n = true ↔ scopes.phpOperator op left.node right.node = .join := by
  rw [Scopes.isStringTyped]
  simp [Scopes.phpOperator, Node.isStringLiteral, Kind.isStringLiteral, h.kind, h.left, h.right,
    h.operator, Operator.symbol_eq_plus, and_assoc]

theorem Scopes.phpOperator_cases (scopes : Scopes) (op : Operator) (left right : Node) :
    scopes.phpOperator op left right = .same op ∨
      scopes.phpOperator op left right = .join ∧ op = .add ∧ scopes.isStringTyped left = true ∧
        scopes.isStringTyped right = true := by
  rw [phpOperator]
  split
  · rename_i h
    exact .inr ⟨rfl, h⟩
  · exact .inl rfl

namespace OperatorTree

variable {n : Node} {tokens : TokenIndex} {scopes : Scopes}

/-- An operator that is not in parentheses is the one that the node has. -/
theorem exists_isBinary (e : OperatorTree n) {parens : Parens} {inner : Php.Operator}
    (h : inner ∈ (e.expr tokens scopes parens).operator?) :
    parens.wraps tokens n = false ∧
      ∃ op left right, n.IsBinary op left right ∧ e.operator? = some op ∧
      scopes.phpOperator op left.node right.node = inner := by
  cases hwraps : parens.wraps tokens n with
  | true => cases e <;> simp [expr, hwraps, Php.Expr.wrap, Php.Expr.operator?] at h
  | false =>
    refine ⟨rfl, ?_⟩
    cases e with
    | operand hn => simp [expr, hwraps, Php.Expr.wrap, Php.Expr.operator?] at h
    | @binary _ op left right hn l r =>
      simp only [expr, hwraps, Php.Expr.wrap, Php.Expr.operator?, Bool.false_eq_true, if_false,
        Option.mem_some_iff] at h
      exact ⟨op, left, right, hn, rfl, h⟩

/-- An operand may stand beside its operator as it is written. -/
theorem admits_operand (e : OperatorTree n) {op : Operator} {side : Side}
    {outer inner : Php.Operator} (hgrouped : e.OperandGrouped tokens op side)
    (houter : outer = .same op ∨ outer = .join ∧ op = .add ∧ scopes.isStringTyped n = true)
    (hinner : inner ∈ (e.expr tokens scopes (scopes.operandParens outer n)).operator?) :
    outer.Admits side inner := by
  obtain ⟨hwraps, op', left, right, hn, hop', rfl⟩ := e.exists_isBinary hinner
  have hstring := hn.isStringTyped_iff scopes
  -- Without parentheses in the output there are none in the source, so it needs none.
  have hbare (hparens : scopes.operandParens outer n = .asSource) :
      op.separates side op' = false ∧ (op.isComparison = true → op'.level ≠ op.level) := by
    rw [hparens] at hwraps
    have hsource := mt (hgrouped op' hop') (by simpa [Parens.wraps] using hwraps)
    simpa using hsource
  rcases houter with rfl | ⟨rfl, rfl, hjoined⟩
  · rcases scopes.phpOperator_cases op' left.node right.node with hsame | ⟨hjoin, -⟩
    · have hparens : scopes.operandParens (.same op) n = .asSource := by
        rw [Scopes.operandParens, if_neg]
        simp [hstring, hsame]
      rw [hsame]
      exact Operator.admits_same (hbare hparens).1 (hbare hparens).2
    · left
      have hloose : ¬ 7 < (Php.Operator.same op).level := by
        intro htight
        rw [Scopes.operandParens, if_pos ⟨htight, hn.kind, hstring.mpr hjoin⟩] at hwraps
        cases hwraps
      have hlevel := Operator.level_same op
      rw [hjoin]
      change (Php.Operator.same op).level < 7
      split at hlevel <;> omega
  · have hjoin := hstring.mp hjoined
    rw [hjoin]
    rcases scopes.phpOperator_cases op' left.node right.node with hsame | ⟨-, rfl, -⟩
    · cases hjoin.symm.trans hsame
    · have hseparate := (hbare (by simp [Scopes.operandParens, Php.Operator.level])).1
      cases side with
      | left => exact .inr ⟨rfl, rfl⟩
      | right => cases hseparate

theorem wellFormed_expr (e : OperatorTree n) (hgrouped : e.Grouped tokens) (parens : Parens) :
    (e.expr tokens scopes parens).WellFormed := by
  induction e generalizing parens with
  | operand h => simp [expr, Php.Expr.WellFormed]
  | @binary n op left right h l r ihLeft ihRight =>
    obtain ⟨hleft, hright, hl, hr⟩ := hgrouped
    simp only [expr, Php.Expr.wellFormed_wrap]
    have houter := scopes.phpOperator_cases op left.node right.node
    refine ⟨fun inner hinner => l.admits_operand hleft ?_ hinner,
      fun inner hinner => r.admits_operand hright ?_ hinner, ihLeft hl _, ihRight hr _⟩
    · exact houter.imp_right fun h => ⟨h.1, h.2.1, h.2.2.1⟩
    · exact houter.imp_right fun h => ⟨h.1, h.2.1, h.2.2.2⟩

end OperatorTree

/-- From every state that binds what `scopes` bind, a script succeeds and writes lexemes. -/
def Writes (env : EmitEnv) (comments : List Comment) (scopes : Scopes) (m : EmitM Unit)
    (xs : List Php.Lexeme) : Prop :=
  ∀ s : EmitState, s.scopes.Alike scopes → ∃ t, m.run env s = .ok () t ∧
    Php.Adds comments s.output t.output xs ∧ t.scopes.Alike scopes

namespace Writes

open EmitM

variable {env : EmitEnv} {comments : List Comment} {scopes : Scopes} {m k : EmitM Unit}
  {xs ys : List Php.Lexeme} {n : Node}

theorem getScopes {f : Scopes → EmitM Unit}
    (h : ∀ a, a.Alike scopes → Writes env comments scopes (f a) xs) :
    Writes env comments scopes (EmitM.getScopes >>= f) xs := fun s hs => h s.scopes hs s hs

theorem operand {text : List Char} (htext : EndsWord text) :
    Writes env comments scopes (emitChars text) [.operand text] := fun _ hs =>
  ⟨_, rfl, .word htext (by simp) (Output.text_emitChars _ _), hs⟩

theorem refer (hk : Writes env comments scopes k xs) :
    Writes env comments scopes (Script.act (.refer n) k) xs := by
  intro s hs
  have halike := (Scopes.Alike.refer s.scopes n).trans hs
  obtain ⟨t, hrun, hadds, ht⟩ := hk (Action.apply (.refer n) s) halike
  exact ⟨t, hrun, hadds, ht⟩

/-- An operator between two operands, the second of which is indented. -/
theorem operator (op : Php.Operator) (hm : Writes env comments scopes m xs)
    (hk : Writes env comments scopes k ys) (hys : ys ≠ []) :
    Writes env comments scopes (do m; emit (" " ++ op.symbol ++ " "); Emit.indented k)
      (xs ++ .operator op :: ys) := by
  intro s hs
  obtain ⟨t, hrun, hadds, ht⟩ := hm s hs
  let u := t.onOutput (·.emit (" " ++ op.symbol ++ " "))
  obtain ⟨v, hrun', hadds', hv⟩ := hk (Frame.indent.enter u) ht
  refine ⟨Frame.indent.exit u v, ?_, ?_, hv⟩
  · have hrest :
        Script.run (do emit (" " ++ op.symbol ++ " "); Emit.indented k : EmitM Unit) env t =
        .ok () (Frame.indent.exit u v) := by
      change Script.run (Script.within .indent k _) env u = _
      simp [Script.run, hrun', Pure.pure]
    exact ((Script.runs_of_run hrun).bind (Script.runs_of_run hrest)).run_eq.1
  · refine hadds.operator ?_
      (((Php.Adds.increaseIndent u.output).trans hadds').decreaseIndent hys) hys
    simp [u, EmitState.onOutput]

theorem around {e : Php.Expr} (parens : Parens) (hlocated : n.isSynthetic = false)
    (hkind : n.kind ≠ .program) (hcomments : n.leading ++ n.inner ++ n.trailing ⊆ comments)
    (hm : Writes env comments scopes m e.lexemes) :
    Writes env comments scopes (EmitM.around n parens m)
      (e.wrap (parens.wraps env.tokens n)).lexemes := by
  intro s hs
  simp only [List.append_subset] at hcomments
  obtain ⟨⟨hleading, hinner⟩, htrailing⟩ := hcomments
  generalize hwraps : parens.wraps env.tokens n = wrapped
  obtain ⟨t, hrun, hadds, ht⟩ := hm ((Frame.node n wrapped).enter s) hs
  refine ⟨(Frame.node n wrapped).exit s t, ?_, ?_, ht⟩
  · change Script.run (.within (.node n (parens.wraps env.tokens n)) m _) env s = _
    simp [Script.run, hwraps, hrun, Pure.pure]
  · rw [Php.Expr.lexemes_wrap]
    exact ((Php.Adds.beginNode s.output wrapped hlocated hkind hleading).trans hadds).trans
      (.endNode t.output wrapped hlocated hinner htrailing)

theorem name {context : Context} (hbare : context.bare = false) (hcallee : context.callee = false)
    (hn : Unbroken n.text.toList) :
    Writes env comments scopes (Emit.identifier n context)
      [.operand (scopes.nameText n).toList] := by
  have hemit : Writes env comments scopes (emit (scopes.nameText n))
      [.operand (scopes.nameText n).toList] :=
    operand (scopes.endsWord_nameText hn)
  rw [Emit.identifier]
  simp only [hbare, hcallee, Bool.or_self, Bool.false_eq_true, if_false]
  split
  · rename_i hundefined
    rw [Scopes.nameText, if_pos hundefined] at hemit ⊢
    exact hemit
  · rename_i hundefined
    refine getScopes fun a ha => ?_
    rw [ha.constant?_eq]
    cases hconstant : Builtin.constant? scopes n with
    | some constant =>
      simp only [Scopes.nameText, hundefined, hconstant, if_false] at hemit ⊢
      exact hemit
    | none =>
      refine getScopes fun a ha => ?_
      rw [ha.resolve?_eq]
      refine refer ?_
      cases hresolve : scopes.resolve? n with
      | none =>
        simp only [Scopes.nameText, hundefined, hconstant, hresolve, if_false] at hemit ⊢
        exact hemit
      | some definition =>
        simp only [Scopes.nameText, hundefined, hconstant, hresolve, if_false] at hemit ⊢
        change Writes _ _ _ (if definition.kind.isFunctionDeclaration = true then _ else _) _
        split_ifs at hemit ⊢ <;> exact hemit

theorem numeral {c : Char} {rest : List Char} (hn : n.text.toList = c :: rest)
    (hc : c.isDigit = true ∨ c = '.') (hunbroken : Unbroken (c :: rest)) :
    Writes env comments scopes (Emit.numberLiteral n) [.operand (Literal.number (c :: rest))] := by
  have hdigits : (c :: rest).filter (· != '_') = c :: rest.filter (· != '_') := by
    have hne : c ≠ '_' := by
      rintro rfl
      simp at hc
    simp [hne]
  rw [Emit.numberLiteral, hn]
  refine operand (Unbroken.endsWord (fun d hd => hunbroken d ?_) ?_)
  · rw [Literal.number] at hd
    split at hd
    · exact (List.mem_filter.mp (List.dropLast_subset _ hd)).1
    · exact (List.mem_filter.mp hd).1
  · rw [Literal.number, hdigits]
    split
    · rename_i hlast
      cases hrest : rest.filter (· != '_') with
      | nil =>
        obtain rfl : c = 'n' := by simpa [hrest] using hlast
        simp at hc
      | cons d more => simp
    · simp

theorem quotation {quote : Char} {rest : List Char} (hn : n.text.toList = quote :: rest)
    (hquote : quote = '"' ∨ quote = '\'') : Writes env comments scopes (Emit.stringLiteral n)
    [.operand (Literal.string quote rest.dropLast)] := by
  have hsolid : isBlank quote = false := by rcases hquote with rfl | rfl <;> rfl
  simp only [Emit.stringLiteral, Emit.stringText, hn]
  refine operand ?_
  rw [Literal.string]
  split_ifs
  · exact ⟨quote :: "NULL".toList, quote, rfl, hsolid⟩
  · exact ⟨quote :: rest.dropLast, quote, rfl, hsolid⟩
  · exact ⟨'"' :: Literal.doubleQuotedBody rest.dropLast, '"', rfl, rfl⟩

end Writes

theorem Php.Operator.bindsTighterThanJoin_symbol (op : Php.Operator) :
    bindsTighterThanJoin op.symbol = decide (7 < op.level) := by
  cases op with
  | join => rfl
  | same op => cases op <;> rfl

theorem Operator.phpOperator_symbol (op : Operator) : phpOperator op.symbol = op.symbol := by
  cases op <;> rfl

open EmitM in
theorem Node.IsBinary.binary_eq {n : Node} {op : Operator} {left right : Part n}
    (h : n.IsBinary op left right) (visit : Visit n) (context : Context) :
    Emit.binary n visit context = (do
      let a ← getScopes
      let outer := a.phpOperator op left.node right.node
      visit left { parens := a.operandParens outer left.node }
      emit (" " ++ outer.symbol ++ " ")
      Emit.indented (visit right { parens := a.operandParens outer right.node })) := by
  have hin : ¬ n.operator = "in" := by
    rw [h.operator]
    cases op <;> decide
  have hbare : ¬ n.operator = "instanceof" := by
    rw [h.operator]
    cases op <;> decide
  have hsymbol (a : Scopes) :
      (if n.operator = "+" && a.isStringTyped left.node && a.isStringTyped right.node then "."
        else phpOperator n.operator) = (a.phpOperator op left.node right.node).symbol := by
    rw [h.operator, op.phpOperator_symbol, Scopes.phpOperator]
    simp only [Operator.symbol_eq_plus, Bool.and_eq_true, decide_eq_true_eq, and_assoc]
    split <;> rfl
  simp only [Emit.binary, need, h.left, h.right]
  change (if n.operator = "in" then _ else _) = _
  rw [if_neg hin]
  congr 1
  funext a
  simp only [hsymbol, Php.Operator.bindsTighterThanJoin_symbol, hbare, decide_false]
  simp only [Scopes.operandParens, Bool.and_eq_true, decide_eq_true_eq, and_assoc]
  rfl

theorem emitNode_of_rule {n : Node} {rule : Rule} (h : rule? n.kind = some rule)
    (context : Context) : emitNode n context =
      EmitM.around n context.parens (rule n (fun p c => emitNode p.node c) context) := by
  rw [emitNode, h]

namespace OperatorTree

variable {n : Node} {env : EmitEnv} {comments : List Comment} {scopes : Scopes}

theorem writes_operand (h : n.IsOperand) {context : Context} (hbare : context.bare = false)
    (hcallee : context.callee = false) (hcomments : n.leading ++ n.inner ++ n.trailing ⊆ comments) :
    Writes env comments scopes (emitNode n context)
      (Php.Expr.wrap (context.parens.wraps env.tokens n)
        (.operand (scopes.operandText n))).lexemes := by
  have hshape := h.shape
  generalize hkind : n.kind = kind at hshape
  generalize htext : n.text.toList = text at hshape
  cases hshape with
  | name hunbroken =>
    rw [emitNode_of_rule (by rw [hkind]; rfl)]
    refine .around _ h.located (by simp [hkind]) hcomments ?_
    simpa [Scopes.operandText, Php.Expr.lexemes, hkind] using
      Writes.name hbare hcallee (htext ▸ hunbroken)
  | numeral hc hunbroken =>
    rw [emitNode_of_rule (by rw [hkind]; rfl)]
    refine .around _ h.located (by simp [hkind]) hcomments ?_
    simpa [Scopes.operandText, Php.Expr.lexemes, hkind, htext] using
      Writes.numeral htext hc hunbroken
  | quotation hquote =>
    rw [emitNode_of_rule (by rw [hkind]; rfl)]
    refine .around _ h.located (by simp [hkind]) hcomments ?_
    simpa [Scopes.operandText, Php.Expr.lexemes, hkind, htext] using Writes.quotation htext hquote

/-- An expression of operators is written as `expr` has it. -/
theorem writes (e : OperatorTree n) {context : Context} (hbare : context.bare = false)
    (hcallee : context.callee = false) (hcomments : e.comments ⊆ comments) :
    Writes env comments scopes (emitNode n context)
      (e.expr env.tokens scopes context.parens).lexemes := by
  induction e generalizing context with
  | operand h => exact writes_operand h hbare hcallee hcomments
  | @binary n op left right h l r ihLeft ihRight =>
    rw [OperatorTree.comments, List.append_subset, List.append_subset] at hcomments
    obtain ⟨⟨hown, hleft⟩, hright⟩ := hcomments
    rw [emitNode_of_rule (by rw [h.kind]; rfl)]
    refine .around _ h.located (by simp [h.kind]) hown ?_
    rw [h.binary_eq]
    refine Writes.getScopes fun a ha => ?_
    simp only [ha.phpOperator_eq, ha.operandParens_eq]
    exact (ihLeft rfl rfl hleft).operator _ (ihRight rfl rfl hright) (Php.Expr.lexemes_ne_nil _)

end OperatorTree

/-- PHP reads the expression that the source has, strings being joined instead of added, and reads
nothing else. -/
theorem operators_preserved {n : Node} (e : OperatorTree n) (env : EmitEnv) (s : EmitState)
    (context : Context) (hbare : context.bare = false) (hcallee : context.callee = false)
    (hgrouped : e.Grouped env.tokens) :
    ∃ (t : EmitState) (written : List Char) (p : Php.Expr),
      (emitNode n context).run env s = .ok () t ∧
      t.output.text = trimEnd isBlank s.output.text ++ written ∧
      Php.Spells e.comments written p.lexemes ∧ p.WellFormed ∧ p.tree = e.tree s.scopes ∧
      ∀ q : Php.Expr, q.WellFormed → q.lexemes = p.lexemes → q = p := by
  obtain ⟨t, hrun, ⟨written, hspells, htext, -⟩, -⟩ :=
    e.writes hbare hcallee (List.Subset.refl e.comments) s rfl
  have hwell : (e.expr env.tokens s.scopes context.parens).WellFormed :=
    e.wellFormed_expr hgrouped _
  exact ⟨t, written, _, hrun, htext, hspells, hwell, e.tree_expr _ _ _,
    fun q hq hlexemes => Php.Expr.eq_of_lexemes_eq hq hwell hlexemes⟩

/-- A node on the first line. -/
def Node.onLine (kind : Kind) (start stop : Nat) (text : String) (field : Option Field) : Node :=
  { kind, start, stop, text, field, location := ⟨⟨1, start⟩, ⟨1, stop⟩⟩ }

/-- A sum on the first line. -/
def Node.sum (start stop : Nat) (text : String) (field : Option Field) (left right : Node) : Node :=
  { Node.onLine .binaryExpression start stop text field with
    attrs := [(.operator, "+")]
    children := [left, right] }

def stringSum : Node :=
  .sum 0 9 "\"a\" + \"b\"" (some .left) (.onLine .string 0 3 "\"a\"" (some .left))
    (.onLine .string 6 9 "\"b\"" (some .right))

def mixedSum : Node :=
  .sum 0 13 "\"a\" + \"b\" + 1" none stringSum (.onLine .number 12 13 "1" (some .right))

def mixedSumTree : OperatorTree mixedSum :=
  @OperatorTree.binary mixedSum .add ⟨stringSum, by decide⟩
    ⟨.onLine .number 12 13 "1" (some .right), by decide⟩
    ⟨rfl, rfl, rfl, rfl, rfl⟩
    (@OperatorTree.binary stringSum .add ⟨.onLine .string 0 3 "\"a\"" (some .left), by decide⟩
      ⟨.onLine .string 6 9 "\"b\"" (some .right), by decide⟩ ⟨rfl, rfl, rfl, rfl, rfl⟩
      (.operand ⟨rfl, by exact .quotation (.inl rfl)⟩)
      (.operand ⟨rfl, by exact .quotation (.inl rfl)⟩))
    (.operand ⟨rfl, by exact .numeral (.inl rfl) (by decide)⟩)

/-- The strings are joined first, in parentheses that the source does not have. -/
theorem operators_preserved_mixedSum :
    mixedSumTree.Grouped ⟨[], []⟩ ∧ ∃ (t : EmitState) (written : List Char) (p : Php.Expr),
      (emitNode mixedSum {}).run ⟨{}, ⟨[], []⟩⟩ {} = .ok () t ∧
      t.output.text = trimEnd isBlank [] ++ written ∧
      Php.Spells mixedSumTree.comments written p.lexemes ∧ p.WellFormed ∧
      p.tree = .binary (.same .add)
        (.binary .join (.operand "\"a\"".toList) (.operand "\"b\"".toList)) (.operand "1".toList) ∧
      ∀ q : Php.Expr, q.WellFormed → q.lexemes = p.lexemes → q = p := by
  have hgrouped : mixedSumTree.Grouped ⟨[], []⟩ := by
    simp [mixedSumTree, OperatorTree.Grouped, OperatorTree.OperandGrouped, OperatorTree.operator?,
      Operator.separates, Operator.isComparison, Operator.level]
  have htree : mixedSumTree.tree [] = .binary (.same .add)
      (.binary .join (.operand "\"a\"".toList) (.operand "\"b\"".toList))
      (.operand "1".toList) := by
    decide +kernel
  exact ⟨hgrouped, htree ▸ operators_preserved mixedSumTree ⟨{}, ⟨[], []⟩⟩ {} {} rfl rfl hgrouped⟩

end EcmaPhp
