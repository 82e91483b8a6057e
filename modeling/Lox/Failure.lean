import Lox.Report
import Lox.Value

/-!
# How a computation ends early

`RuntimeError` is a failure of a program, located at a token. `Fault` is a broken promise: something
that cannot happen to a program that was checked and then run, but can to trees, distances and
values that a host puts together by itself. `Exit` is every way in which evaluation can end without
a value.
-/

namespace Lox

inductive Cause where
  | undefinedVariable (name : String)
  | undefinedProperty (name : String)
  | operandNumber
  | operandsNumbers
  | operandsAddition
  | notCallable
  | wrongCount (expected given : Nat)
  | noProperties
  | noFields
  | superclassKind
  deriving DecidableEq, Repr

def Cause.message : Cause → String
  | undefinedVariable name => "Undefined variable '" ++ name ++ "'."
  | undefinedProperty name => "Undefined property '" ++ name ++ "'."
  | operandNumber => "Operand must be a number."
  | operandsNumbers => "Operands must be numbers."
  | operandsAddition => "Operands must be two numbers or two strings."
  | notCallable => "Can only call functions and classes."
  | wrongCount expected given =>
    "Expected " ++ toString expected ++ " arguments but got " ++ toString given ++ "."
  | noProperties => "Only instances have properties."
  | noFields => "Only instances have fields."
  | superclassKind => "Superclass must be a class."

/-- A failure and the token it is blamed on. -/
structure RuntimeError where
  token : Token
  cause : Cause
  deriving DecidableEq, Repr

namespace RuntimeError

def message (e : RuntimeError) : String := e.cause.message

def report (e : RuntimeError) : String := reportFailure e.token.line e.message

end RuntimeError

inductive Fault where
  /-- A distance leads past the outermost scope. -/
  | scopeDistance (distance : Nat)
  /-- A scope does not bind the name it was asked for. -/
  | unboundName (name : String)
  /-- A use of `super` has no distance. -/
  | unresolvedSuper
  /-- A host asks for a global that does not exist. -/
  | unknownGlobal (name : String)
  /-- A host uses a value of the wrong sort. -/
  | wrongSort
  /-- A native was given arguments that it does not take. -/
  | wrongArguments
  | unsupportedBinary (kind : Kind)
  | unsupportedUnary (kind : Kind)
  /-- A statement of no known form. -/
  | unsupportedStatement (form : String)
  /-- An expression of no known form. -/
  | unsupportedExpression (form : String)
  /-- A callable that does not say what it takes or does. -/
  | unimplemented
  deriving DecidableEq, Repr

def Fault.message : Fault → String
  | scopeDistance distance =>
    "scope distance " ++ toString distance ++ " exceeds the environment chain"
  | unsupportedBinary kind => "Binary operator " ++ kind.name ++ " not supported"
  | unsupportedUnary kind => "Unary operator " ++ kind.name ++ " not supported"
  | unsupportedStatement form => "Statement not supported: " ++ form
  | unsupportedExpression form => "Expression not supported: " ++ form
  | unboundName name | unknownGlobal name => name
  | unresolvedSuper | wrongSort | wrongArguments | unimplemented => ""

/-- How evaluation ends without a value. -/
inductive Exit where
  /-- A `return` on its way to the call it ends. -/
  | returned (v : Value)
  | failed (e : RuntimeError)
  | fault (f : Fault)
  /-- Evaluation nests deeper than it may. -/
  | overflow
  /-- A loop goes on longer than it may. -/
  | unfinished

end Lox
