import Lox.Ast
import Lox.Grammar.Rule

/-!
# Expressions

Precedence, from loose to tight: assignment, `or`, `and`, equality, comparison, sums, products,
prefix operators, calls and properties. The six levels of infix operators associate to the left and
share one rule; assignment and prefix operators associate to the right. Each rule takes the number
of steps in which it has to end, and how deep it may nest others; the loops over operators, calls
and arguments nest nothing.
-/

namespace Lox

inductive Level where
  | disjunction
  | conjunction
  | equality
  | comparison
  | term
  | factor
  deriving DecidableEq, Repr

namespace Level

/-- The level of the operands, if they are infix expressions. -/
def tighter : Level → Option Level
  | disjunction => some conjunction
  | conjunction => some equality
  | equality => some comparison
  | comparison => some term
  | term => some factor
  | factor => none

def has : Level → Kind → Bool
  | disjunction, .orKw => true
  | conjunction, .andKw => true
  | equality, .bangEqual | equality, .equalEqual => true
  | comparison, .greater | comparison, .greaterEqual | comparison, .less | comparison, .lessEqual =>
    true
  | term, .minus | term, .plus => true
  | factor, .slash | factor, .star => true
  | _, _ => false

def join : Level → Expr → Token → Expr → Expr
  | disjunction, l, op, r | conjunction, l, op, r => .logical l op r
  | _, l, op, r => .binary l op r

end Level

def Kind.isPrefixOperator : Kind → Bool
  | .bang | .minus => true
  | _ => false

/-- What an assignment to an expression means: variables and properties can be assigned to. -/
def Expr.assigned? : Expr → Expr → Option Expr
  | .var name, value => some (.assign name value)
  | .get object name, value => some (.set object name value)
  | _, _ => none

namespace Grammar

open Rule

mutual

/-- The target is read as an expression first. If it cannot be assigned to, that is noted and the
value is dropped. -/
def assignment : Nat → Depth → Rule Expr
  | 0, _ => exhausted
  | n + 1, d => nest d fun d => do
    let target ← operand n d (some .disjunction)
    match ← accept .equal with
    | none => pure target
    | some equal =>
      let value ← assignment n d
      match target.assigned? value with
      | some e => pure e
      | none =>
        note equal .invalidTarget
        pure target

/-- An expression of a level, or one with prefix operators if there is no level left. -/
def operand : Nat → Depth → Option Level → Rule Expr
  | 0, _, _ => exhausted
  | n + 1, d, some level => nest d fun d => do
    let left ← operand n d level.tighter
    chain n d level left
  | n + 1, d, none => nest d fun d => do
    match ← takeIf Kind.isPrefixOperator with
    | some op =>
      let e ← operand n d none
      pure (.unary op e)
    | none =>
      let e ← primary n d
      suffixes n d e

/-- The operators of a level that follow `left`, with their right operands. -/
def chain : Nat → Depth → Level → Expr → Rule Expr
  | 0, _, _, _ => exhausted
  | n + 1, d, level, left => do
    match ← takeIf level.has with
    | none => pure left
    | some op =>
      let right ← operand n d level.tighter
      chain n d level (level.join left op right)

/-- The calls and properties that follow `e`. -/
def suffixes : Nat → Depth → Expr → Rule Expr
  | 0, _, _ => exhausted
  | n + 1, d, e => do
    match ← peekKind with
    | .leftParen =>
      skip
      let arguments ← argumentList n d
      let paren ← expect .rightParen .argumentsClose
      suffixes n d (.call e paren arguments)
    | .dot =>
      skip
      let name ← expect .identifier .propertyName
      suffixes n d (.get e name)
    | _ => pure e

/-- The arguments up to the closing parenthesis. -/
def argumentList : Nat → Depth → Rule (List Expr)
  | 0, _ => exhausted
  | n + 1, d => do
    if (← peekKind) = .rightParen then pure [] else arguments n d 0

/-- One or more arguments; `count` were read before. -/
def arguments : Nat → Depth → Nat → Rule (List Expr)
  | 0, _, _ => exhausted
  | n + 1, d, count => do
    if maxArguments ≤ count then note (← peek) .tooManyArguments
    let e ← assignment n d
    match ← accept .comma with
    | none => pure [e]
    | some _ =>
      let es ← arguments n d (count + 1)
      pure (e :: es)

def primary : Nat → Depth → Rule Expr
  | 0, _ => exhausted
  | n + 1, d => nest d fun d => do
    let t ← peek
    match ← peekKind with
    | .falseKw => skip; pure (.literal (.bool false))
    | .trueKw => skip; pure (.literal (.bool true))
    | .nilKw => skip; pure (.literal .nil)
    | .number => skip; pure (.literal t.constant)
    | .string => skip; pure (.literal t.constant)
    | .superKw =>
      skip
      let _ ← expect .dot .superDot
      let method ← expect .identifier .superMethod
      pure (.super t method)
    | .thisKw => skip; pure (.this t)
    | .identifier => skip; pure (.var t)
    | .leftParen =>
      skip
      let e ← assignment n d
      let _ ← expect .rightParen .groupClose
      pure (.grouping e)
    | _ => reject .expression

end

def expression (n : Nat) (d : Depth) : Rule Expr := assignment n d

end Grammar
end Lox
