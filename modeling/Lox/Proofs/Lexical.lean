import Lox.Session

/-!
# Lexical scoping by name

An evaluator that knows no distances. Every local declaration pushes a frame that binds its one
name: a variable before its initializer is evaluated, a function and a class before they are made,
each parameter of a call, and `this` and `super`. A closure keeps the frame that is active where it
is declared, and a block or a call gives back the frame that was active before it. A name is looked
for from the active frame outwards, and in the globals last. Frames are scopes with one binding; the
active one is `current`. `Machine.runByName` runs a text this way. All that does not concern
variables is as in `Lox.eval`.
-/

namespace Lox
namespace Lexical

open Exec

/-! ## Frames -/

/-- Pushes a frame with one binding. -/
def push (name : String) (v : Value) : Exec Unit :=
  modify fun m => { m with
    scopes := m.scopes.add (some m.current) (Bindings.empty.set name v)
    current := m.scopes.next }

/-- A local declaration pushes a frame; a global one has its binding in the globals. -/
def declare (isLocal : Bool) (name : Token) : Exec Unit :=
  if isLocal then push name.lexeme .nil else pure ()

def pushAll : List (Token × Value) → Exec Unit
  | [] => pure ()
  | (param, v) :: rest => do
    push param.lexeme v
    pushAll rest

def lookUp (name : Token) : Exec Value := do
  let m ← get
  ofFailure (m.scopes.lookup m.current name)

def assign (name : Token) (v : Value) : Exec Unit := do
  let m ← get
  let scopes ← ofFailure (m.scopes.assign m.current name v)
  modify fun m => { m with scopes := scopes }

/-- A method of the class that `super` names, bound to the instance that `this` names. -/
def superMethod (keyword method : Token) : Exec Value := do
  let parent ← lookUp { keyword with lexeme := "super" }
  let this ← lookUp { keyword with lexeme := "this" }
  match parent with
  | .cls c =>
    match c.method? method.lexeme with
    | some f => .function <$> bindMethod f this
    | none => fail method (.undefinedProperty method.lexeme)
  | _ => fault .wrongSort

/-- Calls a function: its parameters are pushed onto the frames that it was closed over. -/
def invoke (f : Closure) (args : List Value) (run : List Stmt → Exec Unit) : Exec Value := do
  let v ← catchReturn <| within f.scope do
    pushAll (f.decl.params.zip args)
    run f.decl.body
  if f.isInitializer then within f.scope (lookUp { f.decl.name with lexeme := "this" })
  else pure v

def construct (c : Class) (args : List Value) (run : List Stmt → Exec Unit) : Exec Value := do
  let i ← newInstance c
  match c.initializer? with
  | some f =>
    let bound ← bindMethod f (.inst i)
    let _ ← invoke bound args run
    pure (.inst i)
  | none => pure (.inst i)

/-! ## Evaluation -/

mutual

def eval (bound : Nat) : Nat → Expr → Exec Value
  | 0, _ => throw .overflow
  | _ + 1, .literal v => pure v.toValue
  | _ + 1, .var name => lookUp name
  | _ + 1, .this keyword => lookUp keyword
  | depth + 1, .assign name value => do
    let v ← eval bound depth value
    assign name v
    pure v
  | depth + 1, .unary op operand => do
    let v ← eval bound depth operand
    ofResult (Operator.unary op v)
  | depth + 1, .binary left op right => do
    let v ← eval bound depth left
    let w ← eval bound depth right
    ofResult (Operator.binary op v w)
  | depth + 1, .logical left op right => do
    let v ← eval bound depth left
    if v.truthy = (op.kind == .orKw) then pure v else eval bound depth right
  | depth + 1, .grouping inner => eval bound depth inner
  | depth + 1, .call callee paren arguments => do
    let f ← eval bound depth callee
    let args ← arguments.mapM (eval bound depth)
    checkCall paren f args.length
    call bound depth f args
  | depth + 1, .get object name => do
    match ← eval bound depth object with
    | .inst i => getProperty i name
    | _ => fail name .noProperties
  | depth + 1, .set object name value => do
    match ← eval bound depth object with
    | .inst i =>
      let v ← eval bound depth value
      setField i name.lexeme v
      pure v
    | _ => fail name .noFields
  | _ + 1, .super keyword method => superMethod keyword method

/-- Calls a value. The body of a function is local. -/
def call (bound : Nat) : Nat → Value → List Value → Exec Value
  | 0, _, _ => throw .overflow
  | depth + 1, .function f, args => invoke f args fun body => body.forM (exec bound depth true)
  | depth + 1, .cls c, args => construct c args fun body => body.forM (exec bound depth true)
  | _ + 1, .native n, args => callNative n args
  | _ + 1, _, _ => fault .wrongSort

/-- Executes a statement; `isLocal` tells whether it is inside a block or a function. -/
def exec (bound : Nat) : Nat → (isLocal : Bool) → Stmt → Exec Unit
  | 0, _, _ => throw .overflow
  | depth + 1, _, .expr value => do
    let _ ← eval bound depth value
  | depth + 1, _, .print value => do
    let v ← eval bound depth value
    print v.shown
  | depth + 1, isLocal, .varDecl name initializer => do
    declare isLocal name
    let v ← match initializer with
      | some e => eval bound depth e
      | none => pure .nil
    define name.lexeme v
  | depth + 1, _, .block body => do
    within (← get).current (body.forM (exec bound depth true))
  | depth + 1, isLocal, .ifElse condition thenBranch elseBranch => do
    let v ← eval bound depth condition
    if v.truthy then exec bound depth isLocal thenBranch
    else
      match elseBranch with
      | some s => exec bound depth isLocal s
      | none => pure ()
  | depth + 1, isLocal, .whileDo condition body =>
    loop bound (Value.truthy <$> eval bound depth condition) (exec bound depth isLocal body)
  | _ + 1, isLocal, .funDecl decl => do
    declare isLocal decl.name
    let f ← newClosure decl (← get).current false
    define decl.name.lexeme (.function f)
  | depth + 1, _, .ret _ value => do
    let v ← match value with
      | some e => eval bound depth e
      | none => pure .nil
    throw (.returned v)
  | depth + 1, isLocal, .classDecl name superclass methods => do
    declare isLocal name
    declareClass name superclass methods fun t => eval bound depth (.var t)

end

section

variable {bound depth : Nat} (isLocal : Bool)

theorem exec_varDecl (name : Token) (o : Option Expr) :
    exec bound (depth + 1) isLocal (.varDecl name o) = declare isLocal name >>=
    fun _ => o.elim (pure .nil) (eval bound depth) >>= define name.lexeme := by
  rw [exec]
  cases o <;> rfl

theorem exec_ret (keyword : Token) (o : Option Expr) :
    exec bound (depth + 1) isLocal (.ret keyword o) = o.elim (pure .nil) (eval bound depth) >>=
    fun v => throw (.returned v) := by
  cases o <;> rfl

end

/-- Executes statements of the outermost level one after another. -/
def execAll (bound depth : Nat) (program : List Stmt) : Exec Unit :=
  program.forM (exec bound depth false)

end Lexical

/-! ## Runs -/

namespace Machine

/-- Executes statements by name. A failure is kept as the last error. -/
def executeByName (m : Machine) (l : Limits) (program : List Stmt) : Outcome × Machine :=
  match Lexical.execAll l.iterations l.depth program { m with lastError := none } with
  | .ok () m => (.completed, m)
  | .error (.failed e) m => (.stopped (.failed e), { m with lastError := some e })
  | .error why m => (.stopped why, m)

/-- Runs a text by name. It is refused for the same errors; the distances are reported but not
kept. -/
def runByName (m : Machine) (l : Limits) (source : String) : Report × Machine :=
  let (s, m) := m.scan source
  let a := s.analyse l.depth
  match a.program with
  | .ok program =>
    let (outcome, m) := m.executeByName l program
    (⟨a.toPhases, outcome⟩, m)
  | .error outcome => (⟨a.toPhases, outcome⟩, m)

end Machine
end Lox
