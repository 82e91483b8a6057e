import Lox.Resolution

/-!
# The walk

Resolution as a walk over the program that keeps the scopes and the context it is in, and adds to
what it has found. On the way into a function or a class it changes the context, and on the way out
it sets it back. The walk nests as deep as the program does; `resolveWithin` limits that, and where
the limit is exceeded it ends with what it has found so far.
-/

namespace Lox

structure Walker where
  scopes : Static
  context : Context
  found : Findings

def Walker.start : Walker := ⟨[], .topLevel, .none⟩

/-- A part of a walk. It fails where it would nest too deep, and its state is then left as it is. -/
abbrev Walking := EStateM Unit Walker

namespace Walking

/-- Adds a finding that depends on the place. -/
def find (f : Context → Static → Findings) : Walking Unit :=
  modify fun w => { w with found := w.found ++ f w.context w.scopes }

def changeScopes (f : Static → Static) : Walking Unit :=
  modify fun w => { w with scopes := f w.scopes }

def declare (name : Token) : Walking Unit := do
  find fun _ s => s.declareError name
  changeScopes (·.declare name)

def complete (name : Token) : Walking Unit := changeScopes (·.complete name)

def beginScope (scope : Bindings Bool) : Walking Unit := changeScopes (scope :: ·)

def endScope : Walking Unit := changeScopes List.tail

def setFunction (f : FunctionContext) : Walking Unit :=
  modify fun w => { w with context := { w.context with function := f } }

def setClass (c : ClassContext) : Walking Unit :=
  modify fun w => { w with context := { w.context with cls := c } }

/-- The parameters and the body of a function share one scope. -/
def function (visit : Stmt → Walking Unit) (kind : FunctionContext) (f : FunDecl) :
    Walking Unit := do
  let enclosing := (← get).context.function
  setFunction kind
  beginScope .empty
  f.params.forM fun p => do
    declare p
    complete p
  f.body.forM visit
  endScope
  setFunction enclosing

end Walking

open Walking

def Expr.visit : Nat → Expr → Walking Unit
  | 0, _ => throw ()
  | _ + 1, .literal _ => pure ()
  | _ + 1, .var name => find fun _ s => s.referVar name
  | d + 1, .assign name value => do
    value.visit d
    find fun _ s => s.refer .assign name
  | d + 1, .unary _ operand => operand.visit d
  | d + 1, .binary left _ right => do
    left.visit d
    right.visit d
  | d + 1, .logical left _ right => do
    left.visit d
    right.visit d
  | d + 1, .grouping inner => inner.visit d
  | d + 1, .call callee _ arguments => do
    callee.visit d
    arguments.forM (Expr.visit d)
  | d + 1, .get object _ => object.visit d
  | d + 1, .set object _ value => do
    value.visit d
    object.visit d
  | _ + 1, .super keyword _ => do
    find fun ctx _ => .errorIf (ctx.cls == .none) keyword .superOutsideClass
    find fun ctx _ => .errorIf (ctx.cls == .plain) keyword .superWithoutSuperclass
    find fun _ s => s.refer .super keyword
  | _ + 1, .this keyword =>
    find fun ctx s => if ctx.cls == .none then .error keyword .thisOutsideClass
      else s.refer .this keyword

/-- The name of a superclass is a variable. It is resolved outside the scope with `super`. -/
def Walking.superclass (d : Nat) (name parent : Token) : Walking Unit := do
  find fun _ _ => .errorIf (name.lexeme == parent.lexeme) parent .selfInheritance
  setClass .subclass
  Expr.visit d (.var parent)
  beginScope (Static.single "super")

def Stmt.visit : Nat → Stmt → Walking Unit
  | 0, _ => throw ()
  | d + 1, .expr value => value.visit d
  | d + 1, .print value => value.visit d
  | d + 1, .varDecl name initializer => do
    declare name
    initializer.forM (Expr.visit d)
    complete name
  | d + 1, .block body => do
    beginScope .empty
    body.forM (Stmt.visit d)
    endScope
  | d + 1, .ifElse condition thenBranch elseBranch => do
    condition.visit d
    thenBranch.visit d
    elseBranch.forM (Stmt.visit d)
  | d + 1, .whileDo condition body => do
    condition.visit d
    body.visit d
  | d + 1, .funDecl decl => do
    declare decl.name
    complete decl.name
    function (Stmt.visit d) .function decl
  | d + 1, .ret keyword value => do
    find fun ctx _ => .errorIf (ctx.function == .none) keyword .topLevelReturn
    find fun ctx _ =>
      .errorIf (value.isSome && ctx.function == .initializer) keyword .initializerReturn
    value.forM (Expr.visit d)
  | d + 1, .classDecl name parent methods => do
    let enclosing := (← get).context.cls
    setClass .plain
    declare name
    complete name
    parent.forM (Walking.superclass d name)
    beginScope (Static.single "this")
    methods.forM fun m => function (Stmt.visit d) (.ofMethod m.name) m
    endScope
    parent.forM fun _ => endScope
    setClass enclosing

/-- The findings for a program whose parts are visited to a given depth: all of them, or those up to
the place where it was exceeded. -/
def resolveWithin (depth : Nat) (program : List Stmt) : Except Findings Findings :=
  match (program.forM (Stmt.visit depth)).run .start with
  | .ok _ w => .ok w.found
  | .error _ w => .error w.found

end Lox
