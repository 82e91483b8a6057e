import Lox.Ast

/-!
# Trees as text

A tree is written as nested lists. A token is written with its line, as `lexeme@line`, and `-`
stands for a part that is absent. Numbers are written as their bits.
-/

namespace Lox

/-- The bits of a number as sixteen hexadecimal digits; all not-a-numbers are the same. -/
def Number.bits (x : Float) : String :=
  if x.isNaN then "nan"
  else
    let ds := Nat.toDigits 16 x.toBits.toNat
    String.ofList (List.replicate (16 - ds.length) '0' ++ ds)

def Literal.form : Literal → String
  | nil => "nil"
  | bool true => "true"
  | bool false => "false"
  | number x => "#" ++ Number.bits x
  | text s => "\"" ++ s ++ "\""

namespace Token

def lineForm (t : Token) : String := "@" ++ toString t.line

def form (t : Token) : String := t.lexeme ++ t.lineForm

end Token

def listForm (parts : List String) : String := "(" ++ " ".intercalate parts ++ ")"

mutual

def Expr.form : Expr → String
  | .literal v => v.form
  | .var name => listForm ["var", name.form]
  | .assign name value => listForm ["assign", name.form, value.form]
  | .unary op operand => listForm ["unary", op.form, operand.form]
  | .binary left op right => listForm ["binary", op.form, left.form, right.form]
  | .logical left op right => listForm ["logical", op.form, left.form, right.form]
  | .grouping inner => listForm ["group", inner.form]
  | .call callee paren arguments =>
    listForm ("call" :: paren.lineForm :: callee.form :: Expr.forms arguments)
  | .get object name => listForm ["get", object.form, name.form]
  | .set object name value => listForm ["set", object.form, name.form, value.form]
  | .super keyword method => listForm ["super", keyword.lineForm, method.form]
  | .this keyword => listForm ["this", keyword.lineForm]

def Expr.forms : List Expr → List String
  | [] => []
  | e :: es => e.form :: Expr.forms es

end

def Expr.optionForm : Option Expr → String
  | none => "-"
  | some e => e.form

mutual

def Stmt.form : Stmt → String
  | .expr value => listForm ["expr", value.form]
  | .print value => listForm ["print", value.form]
  | .varDecl name initializer => listForm ["vardecl", name.form, Expr.optionForm initializer]
  | .block body => listForm ("block" :: Stmt.forms body)
  | .ifElse condition thenBranch none => listForm ["if", condition.form, thenBranch.form, "-"]
  | .ifElse condition thenBranch (some elseBranch) =>
    listForm ["if", condition.form, thenBranch.form, elseBranch.form]
  | .whileDo condition body => listForm ["while", condition.form, body.form]
  | .funDecl decl => Stmt.funForm decl
  | .ret keyword value => listForm ["return", keyword.lineForm, Expr.optionForm value]
  | .classDecl name superclass methods =>
    let parent := match superclass with
      | none => "-"
      | some t => (Expr.var t).form
    listForm ("class" :: name.form :: parent :: Stmt.funForms methods)

def Stmt.forms : List Stmt → List String
  | [] => []
  | s :: ss => s.form :: Stmt.forms ss

def Stmt.funForm : Callable Stmt → String
  | ⟨name, params, body⟩ =>
    listForm ("fun" :: name.form :: listForm (params.map Token.form) :: Stmt.forms body)

def Stmt.funForms : List (Callable Stmt) → List String
  | [] => []
  | f :: fs => Stmt.funForm f :: Stmt.funForms fs

end

end Lox
