import Lox.Literal

/-!
# Programs as trees

Names, operators and the tokens that errors point at are kept as tokens. A reference is identified
by the site of its name, or of its keyword for `this` and `super`. There is no tree for `for` loops:
they are read as `while` loops.
-/

namespace Lox

inductive Expr where
  | literal (value : Literal)
  | var (name : Token)
  | assign (name : Token) (value : Expr)
  | unary (op : Token) (operand : Expr)
  | binary (left : Expr) (op : Token) (right : Expr)
  | logical (left : Expr) (op : Token) (right : Expr)
  | grouping (inner : Expr)
  /-- Errors of a call are located at its closing parenthesis. -/
  | call (callee : Expr) (paren : Token) (arguments : List Expr)
  | get (object : Expr) (name : Token)
  | set (object : Expr) (name : Token) (value : Expr)
  | super (keyword method : Token)
  | this (keyword : Token)

/-- A function or method with a body of statements `σ`. -/
structure Callable (σ : Type) where
  name : Token
  params : List Token
  body : List σ

inductive Stmt where
  | expr (value : Expr)
  | print (value : Expr)
  | varDecl (name : Token) (initializer : Option Expr)
  | block (body : List Stmt)
  | ifElse (condition : Expr) (thenBranch : Stmt) (elseBranch : Option Stmt)
  | whileDo (condition : Expr) (body : Stmt)
  | funDecl (decl : Callable Stmt)
  | ret (keyword : Token) (value : Option Expr)
  | classDecl (name : Token) (superclass : Option Token) (methods : List (Callable Stmt))

abbrev FunDecl := Callable Stmt

end Lox
