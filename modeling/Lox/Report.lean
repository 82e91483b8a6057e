import Lox.Token

/-!
# Static errors

A `StaticError` is what can be wrong with a text before it runs: a line, a `Place` and a
`Complaint`. `Complaint.message` holds all wordings, `reportLine` the form of a report.
-/

namespace Lox

/-- Where a static error is, in words. -/
inductive Place where
  /-- Errors of single characters name no place. -/
  | unstated
  | atEnd
  | at (lexeme : String)
  deriving DecidableEq, Repr

namespace Place

/-- The place of a token; the end of the text has no lexeme to show. -/
def of (kind : Kind) (lexeme : String) : Place := if kind = .eof then .atEnd else .at lexeme

def text : Place → String
  | unstated => ""
  | atEnd => " at end"
  | .at lexeme => " at '" ++ lexeme ++ "'"

end Place

/-- What a function declaration is called in complaints. -/
inductive Callee where
  | function
  | method
  deriving DecidableEq, Repr

def Callee.text : Callee → String
  | .function => "function"
  | .method => "method"

/-- The static errors of the language. -/
inductive Complaint where
  -- characters
  | unexpectedCharacter
  | unterminatedString
  -- declarations
  | className
  | superclassName
  | classBodyOpen
  | classBodyClose
  | calleeName (c : Callee)
  | parametersOpen (c : Callee)
  | tooManyParameters
  | parameterName
  | parametersClose
  | calleeBody (c : Callee)
  | variableName
  | variableEnd
  -- statements
  | forOpen
  | forCondition
  | forClose
  | ifOpen
  | ifClose
  | printEnd
  | returnEnd
  | whileOpen
  | whileClose
  | blockClose
  | expressionEnd
  -- expressions
  | invalidTarget
  | propertyName
  | tooManyArguments
  | argumentsClose
  | superDot
  | superMethod
  | groupClose
  | expression
  -- scopes
  | alreadyDeclared
  | ownInitializer
  | topLevelReturn
  | initializerReturn
  | thisOutsideClass
  | superOutsideClass
  | superWithoutSuperclass
  | selfInheritance
  deriving DecidableEq, Repr

/-- The most parameters a function, and the most arguments a call, can have. -/
def maxArguments : Nat := 255

def Complaint.message : Complaint → String
  | unexpectedCharacter => "Unexpected character."
  | unterminatedString => "Unterminated string."
  | className => "Expect class name."
  | superclassName => "Expect superclass name."
  | classBodyOpen => "Expect '\x7b' before class body."
  | classBodyClose => "Expect '\x7d' after class body."
  | calleeName c => "Expect " ++ c.text ++ " name."
  | parametersOpen c => "Expect '(' after " ++ c.text ++ " name."
  | tooManyParameters => "Can't have more than " ++ toString maxArguments ++ " parameters."
  | parameterName => "Expect parameter name."
  | parametersClose => "Expect ')' after parameters."
  | calleeBody c => "Expect '\x7b' before " ++ c.text ++ " body."
  | variableName => "Expect variable name."
  | variableEnd => "Expect ';' after variable declaration."
  | forOpen => "Expect '(' after 'for'."
  | forCondition => "Expect ';' after loop condition."
  | forClose => "Expect ')' after for clauses."
  | ifOpen => "Expect '(' after 'if'."
  | ifClose => "Expect ')' after if condition."
  | printEnd => "Expect ';' after value."
  | returnEnd => "Expect ';' after return value."
  | whileOpen => "Expect '(' after 'while'."
  | whileClose => "Expect ')' after condition."
  | blockClose => "Expect '\x7d' after block."
  | expressionEnd => "Expect ';' after expression."
  | invalidTarget => "Invalid assignment target."
  | propertyName => "Expect property name after '.'."
  | tooManyArguments => "Can't have more than " ++ toString maxArguments ++ " arguments."
  | argumentsClose => "Expect ')' after arguments."
  | superDot => "Expect '.' after 'super'."
  | superMethod => "Expect superclass method name."
  | groupClose => "Expect ')' after expression."
  | expression => "Expect expression."
  | alreadyDeclared => "Already a variable with this name in this scope."
  | ownInitializer => "Can't read local variable in its own initializer."
  | topLevelReturn => "Can't return from top-level code."
  | initializerReturn => "Can't return a value from an initializer."
  | thisOutsideClass => "Can't use 'this' outside of a class."
  | superOutsideClass => "Can't use 'super' outside of a class."
  | superWithoutSuperclass => "Can't use 'super' in a class with no superclass."
  | selfInheritance => "A class can't inherit from itself."

/-- The form of a static report; the line can be any integer a host gives. -/
def reportLine (line : Int) (place message : String) : String :=
  "[line " ++ toString line ++ "] Error" ++ place ++ ": " ++ message

def reportFailure (line : Int) (message : String) : String :=
  message ++ "\n[line " ++ toString line ++ "]"

/-- An error found before anything runs. -/
structure StaticError where
  line : Nat
  place : Place
  complaint : Complaint
  deriving DecidableEq, Repr

namespace StaticError

def atToken (t : Token) (c : Complaint) : StaticError := ⟨t.line, Place.of t.kind t.lexeme, c⟩

def message (e : StaticError) : String := e.complaint.message

def report (e : StaticError) : String := reportLine e.line e.place.text e.message

end StaticError
end Lox
