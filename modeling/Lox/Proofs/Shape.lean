import Lox.Grammar.Stmt
import Lox.Resolution

/-!
# The shape of trees

`WellFormed P` says of a tree that its tokens satisfy `P` and are of the category that their place
asks for, and that declarations stand only in lists of statements. `references` lists the references
of a tree, each with the token that identifies it.
-/

namespace Lox

def Kind.isBinaryOperator : Kind → Bool
  | .plus | .minus | .star | .slash | .equalEqual | .bangEqual | .greater | .greaterEqual | .less
  | .lessEqual => true
  | _ => false

def Kind.isLogicalOperator : Kind → Bool
  | .andKw | .orKw => true
  | _ => false

/-- A token of the given category that satisfies `P`. -/
def Token.Is (P : Token → Prop) (k : Kind) (t : Token) : Prop := P t ∧ t.kind = k

/-- The constants that stand in a text: the named ones and those of its number and string tokens. -/
def Literal.WellFormed (P : Token → Prop) (v : Literal) : Prop :=
  v = .nil ∨ (∃ b, v = .bool b) ∨ ∃ t : Token, (t.Is P .number ∨ t.Is P .string) ∧ v = t.constant

mutual

def Expr.WellFormed (P : Token → Prop) : Expr → Prop
  | .literal v => v.WellFormed P
  | .var name => name.Is P .identifier
  | .assign name value => name.Is P .identifier ∧ value.WellFormed P
  | .unary op operand => P op ∧ op.kind.isPrefixOperator ∧ operand.WellFormed P
  | .binary left op right =>
    left.WellFormed P ∧ P op ∧ op.kind.isBinaryOperator ∧ right.WellFormed P
  | .logical left op right =>
    left.WellFormed P ∧ P op ∧ op.kind.isLogicalOperator ∧ right.WellFormed P
  | .grouping inner => inner.WellFormed P
  | .call callee paren arguments =>
    callee.WellFormed P ∧ paren.Is P .rightParen ∧ Expr.AllWellFormed P arguments
  | .get object name => object.WellFormed P ∧ name.Is P .identifier
  | .set object name value => object.WellFormed P ∧ name.Is P .identifier ∧ value.WellFormed P
  | .super keyword method => keyword.Is P .superKw ∧ method.Is P .identifier
  | .this keyword => keyword.Is P .thisKw

def Expr.AllWellFormed (P : Token → Prop) : List Expr → Prop
  | [] => True
  | e :: es => e.WellFormed P ∧ Expr.AllWellFormed P es

end

def Expr.OptionWellFormed (P : Token → Prop) : Option Expr → Prop
  | none => True
  | some e => e.WellFormed P

def Stmt.IsDeclaration : Stmt → Prop
  | .varDecl .. | .funDecl .. | .classDecl .. => True
  | _ => False

def Stmt.declared? : Stmt → Option Token
  | .varDecl name _ => some name
  | .funDecl decl => some decl.name
  | .classDecl name _ _ => some name
  | _ => none

theorem Stmt.declared?_of_not_isDeclaration {s : Stmt} (h : ¬ s.IsDeclaration) :
    s.declared? = none := by
  cases s with
  | varDecl | funDecl | classDecl => exact absurd trivial h
  | _ => rfl

mutual

def Stmt.WellFormed (P : Token → Prop) : Stmt → Prop
  | .expr value => value.WellFormed P
  | .print value => value.WellFormed P
  | .varDecl name initializer => name.Is P .identifier ∧ Expr.OptionWellFormed P initializer
  | .block body => Stmt.AllWellFormed P body
  | .ifElse condition thenBranch none =>
    condition.WellFormed P ∧ thenBranch.WellFormed P ∧ ¬ thenBranch.IsDeclaration
  | .ifElse condition thenBranch (some elseBranch) =>
    condition.WellFormed P ∧ (thenBranch.WellFormed P ∧ ¬ thenBranch.IsDeclaration) ∧
      elseBranch.WellFormed P ∧ ¬ elseBranch.IsDeclaration
  | .whileDo condition body => condition.WellFormed P ∧ body.WellFormed P ∧ ¬ body.IsDeclaration
  | .funDecl decl => Stmt.FunctionWellFormed P decl
  | .ret keyword value => keyword.Is P .returnKw ∧ Expr.OptionWellFormed P value
  | .classDecl name superclass methods =>
    name.Is P .identifier ∧ (∀ t ∈ superclass, t.Is P .identifier) ∧
      Stmt.MethodsWellFormed P methods

def Stmt.AllWellFormed (P : Token → Prop) : List Stmt → Prop
  | [] => True
  | s :: ss => s.WellFormed P ∧ Stmt.AllWellFormed P ss

def Stmt.FunctionWellFormed (P : Token → Prop) : Callable Stmt → Prop
  | ⟨name, params, body⟩ =>
    name.Is P .identifier ∧ (∀ p ∈ params, p.Is P .identifier) ∧ Stmt.AllWellFormed P body

def Stmt.MethodsWellFormed (P : Token → Prop) : List (Callable Stmt) → Prop
  | [] => True
  | m :: ms => Stmt.FunctionWellFormed P m ∧ Stmt.MethodsWellFormed P ms

end

theorem Stmt.WellFormed.declared {P : Token → Prop} {s : Stmt} (h : s.WellFormed P) :
    ∀ t ∈ s.declared?, t.Is P .identifier := by
  intro t ht
  cases s with
  | varDecl name _ => cases ht; exact h.1
  | funDecl decl =>
    obtain ⟨name, params, body⟩ := decl
    cases ht
    exact h.1
  | classDecl name _ _ => cases ht; exact h.1
  | _ => cases ht

mutual

/-- The references in an expression, in the order in which they are resolved. -/
def Expr.references : Expr → List (Reference × Token)
  | .literal _ => []
  | .var name => [(.var, name)]
  | .assign name value => value.references ++ [(.assign, name)]
  | .unary _ operand => operand.references
  | .binary left _ right => left.references ++ right.references
  | .logical left _ right => left.references ++ right.references
  | .grouping inner => inner.references
  | .call callee _ arguments => callee.references ++ Expr.allReferences arguments
  | .get object _ => object.references
  | .set object _ value => value.references ++ object.references
  | .super keyword _ => [(.super, keyword)]
  | .this keyword => [(.this, keyword)]

def Expr.allReferences : List Expr → List (Reference × Token)
  | [] => []
  | e :: es => e.references ++ Expr.allReferences es

end

def Expr.optionReferences : Option Expr → List (Reference × Token)
  | none => []
  | some e => e.references

/-- The name of a superclass is a variable. -/
def superclassReferences (superclass : Option Token) : List (Reference × Token) :=
  superclass.toList.map (Reference.var, ·)

mutual

def Stmt.references : Stmt → List (Reference × Token)
  | .expr value => value.references
  | .print value => value.references
  | .varDecl _ initializer => Expr.optionReferences initializer
  | .block body => Stmt.allReferences body
  | .ifElse condition thenBranch none => condition.references ++ thenBranch.references
  | .ifElse condition thenBranch (some elseBranch) =>
    condition.references ++ (thenBranch.references ++ elseBranch.references)
  | .whileDo condition body => condition.references ++ body.references
  | .funDecl decl => Stmt.functionReferences decl
  | .ret _ value => Expr.optionReferences value
  | .classDecl _ superclass methods =>
    superclassReferences superclass ++ Stmt.methodReferences methods

def Stmt.allReferences : List Stmt → List (Reference × Token)
  | [] => []
  | s :: ss => s.references ++ Stmt.allReferences ss

def Stmt.functionReferences : Callable Stmt → List (Reference × Token)
  | ⟨_, _, body⟩ => Stmt.allReferences body

def Stmt.methodReferences : List (Callable Stmt) → List (Reference × Token)
  | [] => []
  | m :: ms => Stmt.functionReferences m ++ Stmt.methodReferences ms

end

end Lox
