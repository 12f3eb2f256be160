import Mathlib.Data.List.Basic

/-! Operators and the expressions that PHP makes of them. An expression is determined by its
lexemes: precedence and associativity leave one way to read them. -/
namespace EcmaPhp

/-- The binary operators that both languages have. -/
inductive Operator where
  | or | and | bitOr | bitXor | bitAnd | eq | ne | identical | notIdentical | lt | le | gt | ge
  | shiftLeft | shiftRight | add | sub | mul | div | mod | pow
  deriving DecidableEq, Repr

namespace Operator

def symbol : Operator → String
  | or => "||" | and => "&&" | bitOr => "|" | bitXor => "^" | bitAnd => "&"
  | eq => "==" | ne => "!=" | identical => "===" | notIdentical => "!=="
  | lt => "<" | le => "<=" | gt => ">" | ge => ">="
  | shiftLeft => "<<" | shiftRight => ">>"
  | add => "+" | sub => "-" | mul => "*" | div => "/" | mod => "%" | pow => "**"

/-- The precedence in the source language, the loosest operator first. -/
def level : Operator → Nat
  | or => 0 | and => 1 | bitOr => 2 | bitXor => 3 | bitAnd => 4
  | eq | ne | identical | notIdentical => 5
  | lt | le | gt | ge => 6
  | shiftLeft | shiftRight => 7
  | add | sub => 8
  | mul | div | mod => 9
  | pow => 10

/-- Comparisons and equalities, which PHP does not chain. -/
def isComparison (op : Operator) : Bool := op.level = 5 || op.level = 6

end Operator

/-- The side of an operator on which an operand stands. -/
inductive Side where
  | left | right
  deriving DecidableEq, Repr

/-- Whether the source language needs parentheses around an operand with its own operator. -/
def Operator.separates (op : Operator) (side : Side) (inner : Operator) : Bool :=
  inner.level < op.level ||
    inner.level = op.level && (if op = .pow then side = .left else side = .right)

namespace Php

/-- The operators of PHP: those of the source, and the one that joins strings. -/
inductive Operator where
  | same (op : EcmaPhp.Operator)
  | join
  deriving DecidableEq, Repr

namespace Operator

def symbol : Operator → String
  | same op => op.symbol
  | join => "."

/-- The precedence in PHP: joining is looser than shifts and tighter than comparisons. -/
def level : Operator → Nat
  | same .or => 0
  | same .and => 1
  | same .bitOr => 2
  | same .bitXor => 3
  | same .bitAnd => 4
  | same .eq | same .ne | same .identical | same .notIdentical => 5
  | same .lt | same .le | same .gt | same .ge => 6
  | join => 7
  | same .shiftLeft | same .shiftRight => 8
  | same .add | same .sub => 9
  | same .mul | same .div | same .mod => 10
  | same .pow => 11

end Operator

/-- The side on which operators of a level may be repeated; comparisons and equalities have none. -/
def associativity (level : Nat) : Option Side :=
  if level = 11 then some .right else if level = 5 ∨ level = 6 then none else some .left

/-- Whether an operand may stand beside an operator without parentheses. -/
def Operator.Admits (op : Operator) (side : Side) (inner : Operator) : Prop :=
  op.level < inner.level ∨ op.level = inner.level ∧ associativity op.level = some side

theorem Operator.Admits.le {op inner : Operator} {side : Side} (h : op.Admits side inner) :
    op.level ≤ inner.level := by
  rcases h with h | h <;> omega

/-- An expression with its parentheses. -/
inductive Expr where
  | operand (text : List Char)
  | parens (inner : Expr)
  | binary (op : Operator) (left right : Expr)
  deriving DecidableEq, Repr

/-- An expression without parentheses. -/
inductive Tree where
  | operand (text : List Char)
  | binary (op : Operator) (left right : Tree)
  deriving DecidableEq, Repr

inductive Lexeme where
  | operand (text : List Char)
  | operator (op : Operator)
  | opening
  | closing
  deriving DecidableEq, Repr

def Lexeme.text : Lexeme → List Char
  | operand text => text
  | operator op => op.symbol.toList
  | opening => ['(']
  | closing => [')']

namespace Expr

/-- The operator of an expression that has one outside of parentheses. -/
def operator? : Expr → Option Operator
  | binary op _ _ => some op
  | _ => none

def lexemes : Expr → List Lexeme
  | operand text => [.operand text]
  | parens inner => .opening :: (inner.lexemes ++ [.closing])
  | binary op left right => left.lexemes ++ .operator op :: right.lexemes

def tree : Expr → Tree
  | operand text => .operand text
  | parens inner => inner.tree
  | binary op left right => .binary op left.tree right.tree

/-- An expression, in parentheses if `wrapped`. -/
def wrap (wrapped : Bool) (e : Expr) : Expr := if wrapped then parens e else e

/-- Each operand of an operator that has an operator of its own may stand there. -/
def WellFormed : Expr → Prop
  | operand _ => True
  | parens inner => inner.WellFormed
  | binary op left right =>
    (∀ inner ∈ left.operator?, op.Admits .left inner) ∧
      (∀ inner ∈ right.operator?, op.Admits .right inner) ∧ left.WellFormed ∧ right.WellFormed

end Expr

namespace Expr

variable (wrapped : Bool) (e : Expr)

@[simp] theorem tree_wrap : (e.wrap wrapped).tree = e.tree := by
  cases wrapped <;> rfl

@[simp] theorem wellFormed_wrap : (e.wrap wrapped).WellFormed ↔ e.WellFormed := by
  cases wrapped <;> rfl

theorem lexemes_wrap : (e.wrap wrapped).lexemes =
    (if wrapped then [.opening] else []) ++ e.lexemes ++ if wrapped then [.closing] else [] := by
  cases wrapped <;> simp [wrap, lexemes]

end Expr

/-- As many parentheses are closed as are opened. -/
def Balanced (xs : List Lexeme) : Prop := xs.count .closing = xs.count .opening

namespace Balanced

variable {xs ys : List Lexeme}

theorem append (hx : Balanced xs) (hy : Balanced ys) : Balanced (xs ++ ys) := by
  simp only [Balanced, List.count_append] at *
  omega

theorem of_append (h : Balanced (xs ++ ys)) (hx : Balanced xs) : Balanced ys := by
  simp only [Balanced, List.count_append] at *
  omega

theorem operator_cons (op : Operator) : Balanced (.operator op :: xs) ↔ Balanced xs := by
  simp [Balanced]

end Balanced

namespace Expr

variable {e e' : Expr}

theorem balanced_lexemes (e : Expr) : Balanced e.lexemes := by
  induction e with
  | operand text => simp [lexemes, Balanced]
  | parens inner ih => simpa [lexemes, Balanced] using ih
  | binary op left right ihLeft ihRight =>
    exact ihLeft.append ((Balanced.operator_cons op).mpr ihRight)

/-- No start of an expression closes more than it opens. -/
theorem count_closing_le {a b : List Lexeme} (h : e.lexemes = a ++ b) :
    a.count .closing ≤ a.count .opening := by
  induction e generalizing a b with
  | operand text =>
    rcases List.append_eq_singleton_iff.mp h.symm with ⟨rfl, -⟩ | ⟨rfl, -⟩ <;> simp
  | parens inner ih =>
    cases a with
    | nil => simp
    | cons x a =>
      rw [lexemes, List.cons_append, List.cons.injEq] at h
      obtain ⟨rfl, h⟩ := h
      rcases List.append_eq_append_iff.mp h with ⟨c, rfl, hc⟩ | ⟨c, hc, -⟩
      · have hbalanced : inner.lexemes.count .closing = inner.lexemes.count .opening :=
          inner.balanced_lexemes
        rcases List.append_eq_singleton_iff.mp hc.symm with ⟨rfl, -⟩ | ⟨rfl, -⟩ <;> simp [hbalanced]
      · have hle := ih hc
        simp only [List.count_cons_self,
          List.count_cons_of_ne (show Lexeme.opening ≠ .closing by decide)]
        omega
  | binary op left right ihLeft ihRight =>
    rcases List.append_eq_append_iff.mp h with ⟨c, rfl, hc⟩ | ⟨c, hc, -⟩
    · have hbalanced : left.lexemes.count .closing = left.lexemes.count .opening :=
        left.balanced_lexemes
      cases c with
      | nil => simp [hbalanced]
      | cons x c =>
        rw [List.cons_append, List.cons.injEq] at hc
        obtain ⟨rfl, hc⟩ := hc
        have hle := ihRight hc
        simpa [hbalanced] using hle
    · exact ihLeft hc

/-- An operator outside of all parentheses is no looser than the operator of the expression. -/
theorem level_le_of_balanced {a b : List Lexeme} {op : Operator} (he : e.WellFormed)
    (h : e.lexemes = a ++ .operator op :: b) (ha : Balanced a) :
    ∃ outer ∈ e.operator?, outer.level ≤ op.level := by
  induction e generalizing a b with
  | operand text =>
    have hlength := congrArg List.length h
    cases a with
    | nil => simp [lexemes] at h
    | cons x a => simp [lexemes] at hlength
  | parens inner ih =>
    exfalso
    cases a with
    | nil => simp [lexemes] at h
    | cons x a =>
      rw [lexemes, List.cons_append, List.cons.injEq] at h
      obtain ⟨rfl, h⟩ := h
      rcases List.append_eq_append_iff.mp h with ⟨c, rfl, hc⟩ | ⟨c, hc, -⟩
      · rcases List.append_eq_singleton_iff.mp hc.symm with ⟨rfl, hop⟩ | ⟨-, hop⟩
        · simp at hop
        · cases hop
      · have hle := count_closing_le hc
        simp only [Balanced, List.count_cons_self,
          List.count_cons_of_ne (show Lexeme.opening ≠ .closing by decide)] at ha
        omega
  | binary outer left right ihLeft ihRight =>
    obtain ⟨hleft, hright, hwl, hwr⟩ := he
    refine ⟨outer, rfl, ?_⟩
    rcases List.append_eq_append_iff.mp h with ⟨c, rfl, hc⟩ | ⟨c, hc, hb⟩
    · cases c with
      | nil =>
        simp only [List.nil_append, List.cons.injEq, Lexeme.operator.injEq] at hc
        exact hc.1 ▸ Nat.le_refl _
      | cons x c =>
        rw [List.cons_append, List.cons.injEq] at hc
        obtain ⟨rfl, hc⟩ := hc
        have hbalanced := ha.of_append left.balanced_lexemes
        obtain ⟨inner, hinner, hle⟩ := ihRight hwr hc ((Balanced.operator_cons outer).mp hbalanced)
        exact Nat.le_trans (hright inner hinner).le hle
    · cases c with
      | nil =>
        simp only [List.nil_append, List.cons.injEq, Lexeme.operator.injEq] at hb
        exact hb.1 ▸ Nat.le_refl _
      | cons x c =>
        rw [List.cons_append, List.cons.injEq] at hb
        obtain ⟨rfl, -⟩ := hb
        obtain ⟨inner, hinner, hle⟩ := ihLeft hwl hc ha
        exact Nat.le_trans (hleft inner hinner).le hle

/-- Two readings cannot differ in where their outermost operators stand. -/
theorem not_split_apart {op op' : Operator} {left right left' right' : Expr} {c : List Lexeme}
    (h : (binary op left right).WellFormed) (h' : (binary op' left' right').WellFormed)
    (hleft : left'.lexemes = left.lexemes ++ .operator op :: c)
    (hright : right.lexemes = c ++ .operator op' :: right'.lexemes) : False := by
  obtain ⟨-, hadmits, -, hwr⟩ := h
  obtain ⟨hadmits', -, hwl', -⟩ := h'
  have hc : Balanced c := by
    have hbalanced := (hleft ▸ left'.balanced_lexemes).of_append left.balanced_lexemes
    exact (Balanced.operator_cons op).mp hbalanced
  -- Each of the two operators would stand inside an operand of the other, so they are of one level.
  obtain ⟨inner', hinner', hle'⟩ := level_le_of_balanced hwl' hleft left.balanced_lexemes
  obtain ⟨inner, hinner, hle⟩ := level_le_of_balanced hwr hright hc
  have hone := hadmits inner hinner
  have hother := hadmits' inner' hinner'
  rcases hone with hone | ⟨hone, hassoc⟩
  · have := hother.le
    omega
  · rcases hother with hother | ⟨hother, hassoc'⟩
    · omega
    · have hlevel : op.level = op'.level := by omega
      rw [hlevel, hassoc'] at hassoc
      cases hassoc

theorem lexemes_ne_nil (e : Expr) : e.lexemes ≠ [] := by
  cases e <;> simp [lexemes]

theorem binary_ne_operand {op : Operator} {left right : Expr} {text : List Char} :
    (binary op left right).lexemes ≠ [.operand text] := by
  intro h
  rcases List.append_eq_singleton_iff.mp h with ⟨hnil, -⟩ | ⟨-, hnil⟩
  · exact left.lexemes_ne_nil hnil
  · cases hnil

theorem binary_ne_parens {op : Operator} {left right inner : Expr} (hinner : inner.WellFormed) :
    (binary op left right).lexemes ≠ (parens inner).lexemes := by
  intro h
  have hparens : (parens inner).WellFormed := hinner
  obtain ⟨outer, houter, -⟩ := level_le_of_balanced hparens h.symm left.balanced_lexemes
  cases houter

/-- Lexemes can be read in one way only. -/
theorem eq_of_lexemes_eq (he : e.WellFormed) (he' : e'.WellFormed) (h : e.lexemes = e'.lexemes) :
    e = e' := by
  induction e generalizing e' with
  | operand text =>
    cases e' with
    | operand text' => simpa [lexemes] using h
    | parens inner' => simp [lexemes] at h
    | binary op' left' right' => exact absurd h.symm binary_ne_operand
  | parens inner ih =>
    cases e' with
    | operand text' => simp [lexemes] at h
    | parens inner' =>
      simp only [lexemes, List.cons.injEq, true_and, List.append_cancel_right_eq] at h
      have hinner' : inner'.WellFormed := he'
      rw [ih he hinner' h]
    | binary op' left' right' => exact absurd h.symm (binary_ne_parens he)
  | binary op left right ihLeft ihRight =>
    cases e' with
    | operand text' => exact absurd h binary_ne_operand
    | parens inner' => exact absurd h (binary_ne_parens he')
    | binary op' left' right' =>
      rcases List.append_eq_append_iff.mp h with ⟨c, hleft, hright⟩ | ⟨c, hleft, hright⟩
      · cases c with
        | nil =>
          simp only [List.nil_append, List.cons.injEq, Lexeme.operator.injEq] at hright
          simp only [List.append_nil] at hleft
          rw [ihLeft he.2.2.1 he'.2.2.1 hleft.symm, hright.1, ihRight he.2.2.2 he'.2.2.2 hright.2]
        | cons x c =>
          rw [List.cons_append, List.cons.injEq] at hright
          obtain ⟨rfl, hright⟩ := hright
          exact (not_split_apart he he' hleft hright).elim
      · cases c with
        | nil =>
          simp only [List.nil_append, List.cons.injEq, Lexeme.operator.injEq] at hright
          simp only [List.append_nil] at hleft
          rw [ihLeft he.2.2.1 he'.2.2.1 hleft, ← hright.1, ihRight he.2.2.2 he'.2.2.2 hright.2.symm]
        | cons x c =>
          rw [List.cons_append, List.cons.injEq] at hright
          obtain ⟨rfl, hright⟩ := hright
          exact (not_split_apart he' he hleft hright).elim

end Expr
end Php
end EcmaPhp
