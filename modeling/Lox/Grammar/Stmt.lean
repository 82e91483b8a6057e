import Lox.Grammar.Expr

/-!
# Declarations and statements

The rule of a statement with a keyword begins behind it. A declaration that is rejected is dropped
and reading goes on at the next boundary, so that one text can show several errors. `parse` reads
all declarations of a list of tokens; the steps it gives to the rules are enough for any list of
that length. `parseWithin` also limits how deep the rules may nest.
-/

namespace Lox

/-- A `for` loop as a `while` loop: the increment follows the body in a block, a missing condition
is `true`, and an initializer goes in front, in a block around both. -/
def Stmt.forLoop (initializer : Option Stmt) (condition : Option Expr) (increment : Option Expr)
    (body : Stmt) : Stmt :=
  let body := match increment with
    | some e => .block [body, .expr e]
    | none => body
  let loop := .whileDo (condition.getD (.literal (.bool true))) body
  match initializer with
  | some s => .block [s, loop]
  | none => loop

namespace Grammar

open Rule

/-- One or more parameter names; `count` were read before. -/
def parameters : Nat → Nat → Rule (List Token)
  | 0, _ => exhausted
  | n + 1, count => do
    if maxArguments ≤ count then note (← peek) .tooManyParameters
    let name ← expect .identifier .parameterName
    match ← accept .comma with
    | none => pure [name]
    | some _ =>
      let names ← parameters n (count + 1)
      pure (name :: names)

/-- The parameters up to the closing parenthesis. -/
def parameterList (n : Nat) : Rule (List Token) := do
  if (← peekKind) = .rightParen then pure [] else parameters n 0

/-- An expression, unless a token of the given category is next. -/
def expressionUnless (n : Nat) (d : Depth) (kind : Kind) : Rule (Option Expr) := do
  if (← peekKind) = kind then pure none else some <$> expression n d

def varDeclaration (n : Nat) (d : Depth) : Rule Stmt := do
  let name ← expect .identifier .variableName
  let initializer ← match ← accept .equal with
    | some _ => some <$> expression n d
    | none => pure none
  let _ ← expect .semicolon .variableEnd
  pure (.varDecl name initializer)

def expressionStatement (n : Nat) (d : Depth) : Rule Stmt := do
  let e ← expression n d
  let _ ← expect .semicolon .expressionEnd
  pure (.expr e)

def printStatement (n : Nat) (d : Depth) : Rule Stmt := do
  let e ← expression n d
  let _ ← expect .semicolon .printEnd
  pure (.print e)

def returnStatement (n : Nat) (d : Depth) (keyword : Token) : Rule Stmt := do
  let value ← expressionUnless n d .semicolon
  let _ ← expect .semicolon .returnEnd
  pure (.ret keyword value)

/-- The first clause of a `for` loop with its semicolon. -/
def forInitializer (n : Nat) (d : Depth) : Rule (Option Stmt) := do
  match ← peekKind with
  | .semicolon => skip; pure none
  | .varKw => skip; some <$> varDeclaration n d
  | _ => some <$> expressionStatement n d

/-- The name of a superclass, if there is one. -/
def superclass : Rule (Option Token) := do
  match ← accept .less with
  | some _ => some <$> expect .identifier .superclassName
  | none => pure none

mutual

def declaration : Nat → Depth → Rule (Option Stmt)
  | 0, _ => exhausted
  | n + 1, d => nest d fun d => recover do
    match ← peekKind with
    | .classKw => skip; classDeclaration n d
    | .funKw => skip; .funDecl <$> function n d .function
    | .varKw => skip; varDeclaration n d
    | _ => statement n d

def classDeclaration : Nat → Depth → Rule Stmt
  | 0, _ => exhausted
  | n + 1, d => nest d fun d => do
    let name ← expect .identifier .className
    let parent ← superclass
    let _ ← expect .leftBrace .classBodyOpen
    let methods ← methodList n d
    let _ ← expect .rightBrace .classBodyClose
    pure (.classDecl name parent methods)

/-- The methods up to the closing brace. -/
def methodList : Nat → Depth → Rule (List FunDecl)
  | 0, _ => exhausted
  | n + 1, d => do
    match ← peekKind with
    | .rightBrace | .eof => pure []
    | _ =>
      let method ← function n d .method
      let methods ← methodList n d
      pure (method :: methods)

/-- A function or method from its name on. -/
def function : Nat → Depth → Callee → Rule FunDecl
  | 0, _, _ => exhausted
  | n + 1, d, callee => nest d fun d => do
    let name ← expect .identifier (.calleeName callee)
    let _ ← expect .leftParen (.parametersOpen callee)
    let params ← parameterList n
    let _ ← expect .rightParen .parametersClose
    let _ ← expect .leftBrace (.calleeBody callee)
    let body ← block n d
    pure ⟨name, params, body⟩

def statement : Nat → Depth → Rule Stmt
  | 0, _ => exhausted
  | n + 1, d => nest d fun d => do
    let t ← peek
    match ← peekKind with
    | .forKw => skip; forStatement n d
    | .ifKw => skip; ifStatement n d
    | .printKw => skip; printStatement n d
    | .returnKw => skip; returnStatement n d t
    | .whileKw => skip; whileStatement n d
    | .leftBrace => skip; .block <$> block n d
    | _ => expressionStatement n d

def forStatement : Nat → Depth → Rule Stmt
  | 0, _ => exhausted
  | n + 1, d => nest d fun d => do
    let _ ← expect .leftParen .forOpen
    let initializer ← forInitializer n d
    let condition ← expressionUnless n d .semicolon
    let _ ← expect .semicolon .forCondition
    let increment ← expressionUnless n d .rightParen
    let _ ← expect .rightParen .forClose
    let body ← statement n d
    pure (.forLoop initializer condition increment body)

/-- What follows `if`. An `else` belongs to the nearest `if`. -/
def ifStatement : Nat → Depth → Rule Stmt
  | 0, _ => exhausted
  | n + 1, d => nest d fun d => do
    let _ ← expect .leftParen .ifOpen
    let condition ← expression n d
    let _ ← expect .rightParen .ifClose
    let thenBranch ← statement n d
    match ← accept .elseKw with
    | some _ =>
      let elseBranch ← statement n d
      pure (.ifElse condition thenBranch (some elseBranch))
    | none => pure (.ifElse condition thenBranch none)

def whileStatement : Nat → Depth → Rule Stmt
  | 0, _ => exhausted
  | n + 1, d => nest d fun d => do
    let _ ← expect .leftParen .whileOpen
    let condition ← expression n d
    let _ ← expect .rightParen .whileClose
    let body ← statement n d
    pure (.whileDo condition body)

/-- What follows an opening brace, with the closing one. -/
def block : Nat → Depth → Rule (List Stmt)
  | 0, _ => exhausted
  | n + 1, d => nest d fun d => do
    let body ← declarations n d true
    let _ ← expect .rightBrace .blockClose
    pure body

/-- The declarations up to the end of the text or, inside a block, to a closing brace. -/
def declarations : Nat → Depth → Bool → Rule (List Stmt)
  | 0, _, _ => exhausted
  | n + 1, d, inBlock => do
    let kind ← peekKind
    if kind = .eof || (inBlock && kind = .rightBrace) then pure []
    else
      let first ← declaration n d
      let others ← declarations n d inBlock
      pure (first.toList ++ others)

end

/-- A number of steps that no list of tokens exhausts. -/
def stepsFor (ts : List Token) : Nat := 16 * (ts.length + 1)

/-- All declarations in front of the first end of text. -/
def readAll (d : Depth) (tokens : List Token) (eof : Token) : Reading (List Stmt) :=
  let body := tokens.takeWhile (·.kind ≠ .eof)
  let stop := (tokens.dropWhile (·.kind ≠ .eof)).headD eof
  declarations (stepsFor body) d false stop body

end Grammar

/-- The statements of a list of tokens and the errors on the way. -/
structure Parsed where
  statements : List Stmt
  errors : List StaticError

/-- What there is to read in a list of tokens. -/
def parse (tokens : List Token) (eof : Token) : Parsed :=
  match Grammar.readAll .unlimited tokens eof with
  | ⟨.done statements, errors, _⟩ => ⟨statements, errors⟩
  | ⟨_, errors, _⟩ => ⟨[], errors⟩

/-- What can be read with rules that nest to a given depth. If that is not enough, there are only
the errors up to the place where it was exceeded. -/
def parseWithin (depth : Nat) (tokens : List Token) (eof : Token) :
    Except (List StaticError) Parsed :=
  match Grammar.readAll (.levels depth) tokens eof with
  | ⟨.done statements, errors, _⟩ => .ok ⟨statements, errors⟩
  | ⟨_, errors, _⟩ => .error errors

end Lox
