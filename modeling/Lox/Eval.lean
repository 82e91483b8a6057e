import Lox.Machine
import Lox.Operator

/-!
# Evaluation

`eval`, `call` and `exec` give the meaning of expressions, calls and statements. They recurse on the
depth to which evaluation may nest: at depth zero it ends with `Exit.overflow`, which nothing
catches. Only loops go on without nesting, and `bound` limits how often each of them repeats.
-/

namespace Lox

open Exec

/-- The class a method calls as `super`: found by the distance of the keyword, with the instance one
scope nearer. The method is bound to that instance. -/
def Exec.superMethod (keyword method : Token) : Exec Value := do
  let m ← get
  match m.distances.find? keyword.site with
  | none => fault .unresolvedSuper
  | some d =>
    let parent ← ofFault (m.scopes.getAt m.current d "super")
    let this ← ofFault (m.scopes.getAt m.current (d - 1) "this")
    match parent with
    | .cls c =>
      match c.method? method.lexeme with
      | some f => .function <$> bindMethod f this
      | none => fail method (.undefinedProperty method.lexeme)
    | _ => fault .wrongSort

/-- The class that the value of a superclass name must be. -/
def Exec.asSuperclass (name : Token) : Value → Exec Class
  | .cls c => pure c
  | _ => fail name .superclassKind

/-- Executes a class declaration; the superclass has its name as expression. The class name is bound
to `nil` at first, and methods are closed over a scope with `super` if there is a superclass. -/
def Exec.declareClass (name : Token) (superclass : Option Token) (methods : List FunDecl)
    (evalSuperclass : Token → Exec Value) : Exec Unit := do
  define name.lexeme .nil
  let parent ← match superclass with
    | none => pure none
    | some t => some <$> (evalSuperclass t >>= asSuperclass t)
  let scope := (← get).current
  let scope ← match parent with
    | none => pure scope
    | some c => newScope scope (Bindings.empty.set "super" (.cls c))
  let c ← newClass name.lexeme parent methods scope
  define name.lexeme (.cls c)

mutual

def eval (bound : Nat) : Nat → Expr → Exec Value
  | 0, _ => throw .overflow
  | _ + 1, .literal v => pure v.toValue
  | _ + 1, .var name => lookUp name
  | _ + 1, .this keyword => lookUp keyword
  | depth + 1, .assign name value => do
    let v ← eval bound depth value
    assign name v
    pure v
  | depth + 1, .unary op operand => do
    let v ← eval bound depth operand
    ofResult (Operator.unary op v)
  | depth + 1, .binary left op right => do
    let v ← eval bound depth left
    let w ← eval bound depth right
    ofResult (Operator.binary op v w)
  | depth + 1, .logical left op right => do
    let v ← eval bound depth left
    if v.truthy = (op.kind == .orKw) then pure v else eval bound depth right
  | depth + 1, .grouping inner => eval bound depth inner
  | depth + 1, .call callee paren arguments => do
    let f ← eval bound depth callee
    let args ← arguments.mapM (eval bound depth)
    checkCall paren f args.length
    call bound depth f args
  | depth + 1, .get object name => do
    match ← eval bound depth object with
    | .inst i => getProperty i name
    | _ => fail name .noProperties
  | depth + 1, .set object name value => do
    match ← eval bound depth object with
    | .inst i =>
      let v ← eval bound depth value
      setField i name.lexeme v
      pure v
    | _ => fail name .noFields
  | _ + 1, .super keyword method => superMethod keyword method

/-- Calls a value, whatever the number of arguments: those without a parameter are ignored, and
parameters without one stay unbound. -/
def call (bound : Nat) : Nat → Value → List Value → Exec Value
  | 0, _, _ => throw .overflow
  | depth + 1, .function f, args => invoke f args fun body => body.forM (exec bound depth)
  | depth + 1, .cls c, args => construct c args fun body => body.forM (exec bound depth)
  | _ + 1, .native n, args => callNative n args
  | _ + 1, _, _ => fault .wrongSort

def exec (bound : Nat) : Nat → Stmt → Exec Unit
  | 0, _ => throw .overflow
  | depth + 1, .expr value => do
    let _ ← eval bound depth value
  | depth + 1, .print value => do
    let v ← eval bound depth value
    print v.shown
  | depth + 1, .varDecl name initializer => do
    let v ← match initializer with
      | some e => eval bound depth e
      | none => pure .nil
    define name.lexeme v
  | depth + 1, .block body => do
    let scope ← newScope (← get).current .empty
    within scope (body.forM (exec bound depth))
  | depth + 1, .ifElse condition thenBranch elseBranch => do
    let v ← eval bound depth condition
    if v.truthy then exec bound depth thenBranch
    else
      match elseBranch with
      | some s => exec bound depth s
      | none => pure ()
  | depth + 1, .whileDo condition body =>
    loop bound (Value.truthy <$> eval bound depth condition) (exec bound depth body)
  | _ + 1, .funDecl decl => do
    let f ← newClosure decl (← get).current false
    define decl.name.lexeme (.function f)
  | depth + 1, .ret _ value => do
    let v ← match value with
      | some e => eval bound depth e
      | none => pure .nil
    throw (.returned v)
  | depth + 1, .classDecl name superclass methods =>
    declareClass name superclass methods fun t => eval bound depth (.var t)

end

def execAll (bound depth : Nat) (program : List Stmt) : Exec Unit := program.forM (exec bound depth)

end Lox
