import Lox.Ast
import Lox.Bindings
import Lox.Report

/-!
# Resolution

Before a program runs, every reference to a local name gets its distance: the number of scopes
between the reference and the scope that declares the name. References to globals get none. The same
walk finds the errors that need no run. `resolve` returns both in the order of the walk, in which
the value of an assignment comes before its target.
-/

namespace Lox

inductive Reference where
  | var
  | assign
  | this
  | super
  deriving DecidableEq, Repr

def Reference.name : Reference → String
  | var => "Variable"
  | assign => "Assign"
  | this => "This"
  | super => "Super"

/-- A reference with its distance. -/
structure Resolution where
  reference : Reference
  token : Token
  distance : Nat
  deriving DecidableEq, Repr

/-- What the walk over a piece of program finds. -/
structure Findings where
  resolutions : List Resolution
  errors : List StaticError
  deriving DecidableEq, Repr

namespace Findings

def none : Findings := ⟨[], []⟩

def error (t : Token) (c : Complaint) : Findings := ⟨[], [StaticError.atToken t c]⟩

def errorIf (condition : Bool) (t : Token) (c : Complaint) : Findings :=
  if condition then error t c else none

instance : Append Findings := ⟨fun a b => ⟨a.resolutions ++ b.resolutions, a.errors ++ b.errors⟩⟩

@[simp] theorem resolutions_append (a b : Findings) :
    (a ++ b).resolutions = a.resolutions ++ b.resolutions := rfl

@[simp] theorem errors_append (a b : Findings) : (a ++ b).errors = a.errors ++ b.errors := rfl

theorem append_assoc (a b c : Findings) : a ++ b ++ c = a ++ (b ++ c) := by
  show Findings.mk _ _ = Findings.mk _ _
  simp

@[simp] theorem append_none (a : Findings) : a ++ none = a := by
  show Findings.mk _ _ = a
  simp [none]

@[simp] theorem none_append (a : Findings) : none ++ a = a := rfl

end Findings

inductive FunctionContext where
  | none
  | function
  | method
  | initializer
  deriving DecidableEq, Repr

inductive ClassContext where
  | none
  | plain
  | subclass
  deriving DecidableEq, Repr

/-- What encloses a piece of program. -/
structure Context where
  function : FunctionContext
  cls : ClassContext
  deriving DecidableEq, Repr

def Context.topLevel : Context := ⟨.none, .none⟩

/-- The local scopes around a piece of program, from the inside out. Each name says whether its
declaration is complete: that of a variable is not while its initializer is read. -/
abbrev Static := List (Bindings Bool)

namespace Static

/-- Declares a name in the innermost scope. Globals are not declared. -/
def declare (s : Static) (name : Token) : Static :=
  match s with
  | [] => []
  | scope :: outer => scope.set name.lexeme false :: outer

/-- A name must not be declared twice in one scope. -/
def declareError (s : Static) (name : Token) : Findings :=
  match s with
  | [] => .none
  | scope :: _ => .errorIf (scope.get? name.lexeme).isSome name .alreadyDeclared

def complete (s : Static) (name : Token) : Static :=
  match s with
  | [] => []
  | scope :: outer => scope.set name.lexeme true :: outer

/-- A scope with one name, complete from the start. -/
def single (name : String) : Bindings Bool := Bindings.empty.set name true

/-- The distance of a name: the number of scopes inside the nearest one that declares it. -/
def distance? (s : Static) (name : String) : Option Nat :=
  s.findIdx? fun scope => (scope.get? name).isSome

/-- Whether the innermost scope is reading the initializer of a name. -/
def isInitializing (s : Static) (name : String) : Bool :=
  match s with
  | [] => false
  | scope :: _ => scope.get? name == some false

def refer (s : Static) (r : Reference) (t : Token) : Findings :=
  match s.distance? t.lexeme with
  | some d => ⟨[⟨r, t, d⟩], []⟩
  | none => .none

def referVar (s : Static) (name : Token) : Findings :=
  .errorIf (s.isInitializing name.lexeme) name .ownInitializer ++ s.refer .var name

/-- Declares parameters, each complete at once. -/
def declareParams (s : Static) : List Token → Static × Findings
  | [] => (s, .none)
  | p :: ps =>
    let (s', f) := ((s.declare p).complete p).declareParams ps
    (s', s.declareError p ++ f)

end Static

mutual

def Expr.resolve (ctx : Context) (s : Static) : Expr → Findings
  | .literal _ => .none
  | .var name => s.referVar name
  | .assign name value => value.resolve ctx s ++ s.refer .assign name
  | .unary _ operand => operand.resolve ctx s
  | .binary left _ right => left.resolve ctx s ++ right.resolve ctx s
  | .logical left _ right => left.resolve ctx s ++ right.resolve ctx s
  | .grouping inner => inner.resolve ctx s
  | .call callee _ arguments => callee.resolve ctx s ++ Expr.resolveAll ctx s arguments
  | .get object _ => object.resolve ctx s
  | .set object _ value => value.resolve ctx s ++ object.resolve ctx s
  | .super keyword _ =>
    .errorIf (ctx.cls == .none) keyword .superOutsideClass ++
      .errorIf (ctx.cls == .plain) keyword .superWithoutSuperclass ++ s.refer .super keyword
  | .this keyword =>
    if ctx.cls == .none then .error keyword .thisOutsideClass else s.refer .this keyword

def Expr.resolveAll (ctx : Context) (s : Static) : List Expr → Findings
  | [] => .none
  | e :: es => e.resolve ctx s ++ Expr.resolveAll ctx s es

end

def Expr.resolveOption (ctx : Context) (s : Static) : Option Expr → Findings
  | none => .none
  | some e => e.resolve ctx s

/-- The scopes around the methods of a class that is declared in `s`: one with `this`, inside one
with `super` if there is a superclass. -/
def Static.forMethods (s : Static) (superclass : Option Token) : Static :=
  match superclass with
  | none => single "this" :: s
  | some _ => single "this" :: single "super" :: s

def Static.referSuperclass (s : Static) (name : Token) : Option Token → Findings
  | none => .none
  | some parent =>
    .errorIf (name.lexeme == parent.lexeme) parent .selfInheritance ++ s.referVar parent

def ClassContext.of (superclass : Option Token) : ClassContext :=
  if superclass.isSome then .subclass else .plain

def FunctionContext.ofMethod (name : Token) : FunctionContext :=
  if name.lexeme == "init" then .initializer else .method

mutual

/-- The findings for a statement, and the scopes for those that follow it. -/
def Stmt.resolve (ctx : Context) (s : Static) : Stmt → Static × Findings
  | .expr value => (s, value.resolve ctx s)
  | .print value => (s, value.resolve ctx s)
  | .varDecl name initializer =>
    let s' := s.declare name
    (s'.complete name, s.declareError name ++ Expr.resolveOption ctx s' initializer)
  | .block body => (s, (Stmt.resolveAll ctx (.empty :: s) body).2)
  | .ifElse condition thenBranch none =>
    let (s₁, f₁) := thenBranch.resolve ctx s
    (s₁, condition.resolve ctx s ++ f₁)
  | .ifElse condition thenBranch (some elseBranch) =>
    let (s₁, f₁) := thenBranch.resolve ctx s
    let (s₂, f₂) := elseBranch.resolve ctx s₁
    (s₂, condition.resolve ctx s ++ f₁ ++ f₂)
  | .whileDo condition body =>
    let (s₁, f₁) := body.resolve ctx s
    (s₁, condition.resolve ctx s ++ f₁)
  | .funDecl decl =>
    let s' := (s.declare decl.name).complete decl.name
    (s', s.declareError decl.name ++ Stmt.resolveFunction ctx s' .function decl)
  | .ret keyword value =>
    (s, .errorIf (ctx.function == .none) keyword .topLevelReturn ++
      .errorIf (value.isSome && ctx.function == .initializer) keyword .initializerReturn ++
      Expr.resolveOption ctx s value)
  | .classDecl name superclass methods =>
    let s' := (s.declare name).complete name
    (s', s.declareError name ++ s'.referSuperclass name superclass ++
      Stmt.resolveMethods { ctx with cls := .of superclass } (s'.forMethods superclass) methods)

def Stmt.resolveAll (ctx : Context) (s : Static) : List Stmt → Static × Findings
  | [] => (s, .none)
  | stmt :: rest =>
    let (s₁, f₁) := stmt.resolve ctx s
    let (s₂, f₂) := Stmt.resolveAll ctx s₁ rest
    (s₂, f₁ ++ f₂)

/-- The parameters and the body of a function share one scope. -/
def Stmt.resolveFunction (ctx : Context) (s : Static) (kind : FunctionContext) :
    Callable Stmt → Findings
  | ⟨_, params, body⟩ =>
    let (s₁, f₁) := Static.declareParams (.empty :: s) params
    f₁ ++ (Stmt.resolveAll { ctx with function := kind } s₁ body).2

def Stmt.resolveMethods (ctx : Context) (s : Static) : List (Callable Stmt) → Findings
  | [] => .none
  | m :: ms => Stmt.resolveFunction ctx s (.ofMethod m.name) m ++ Stmt.resolveMethods ctx s ms

end

def resolve (program : List Stmt) : Findings := (Stmt.resolveAll .topLevel [] program).2

end Lox
