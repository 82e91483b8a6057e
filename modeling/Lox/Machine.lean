import Lox.Distances
import Lox.Environment

/-!
# The machine

`Machine` is the state of an interpreter: the scopes and the fields of instances, the scope that is
active, the table of distances, what was printed, how the last run failed, and the clock. `Exec` is
a computation on it; whichever way such a computation ends, the machine is kept as it was left. This
module has the steps that evaluation is made of.
-/

namespace Lox

/-- The clock of the host. Nothing is assumed about what it tells from one reading to the next. -/
structure Clock where
  /-- What each reading tells. -/
  times : Nat → Float
  /-- How many readings were taken. -/
  readings : Nat

namespace Clock

def now (c : Clock) : Float := c.times c.readings

def tick (c : Clock) : Clock := { c with readings := c.readings + 1 }

def still (time : Float) : Clock := ⟨fun _ => time, 0⟩

end Clock

structure Machine where
  scopes : Scopes
  /-- The fields of all instances, by their identities. -/
  fields : Array (Bindings Value)
  /-- The identity that the next function, class or native gets. -/
  nextId : Nat
  globals : ScopeId
  /-- The active scope. -/
  current : ScopeId
  distances : Distances
  /-- The site that the next token gets. -/
  nextSite : Nat
  /-- The lines printed so far. -/
  printed : Array String
  /-- The failure of the last program that was executed, if it failed. -/
  lastError : Option RuntimeError
  clock : Clock

namespace Machine

/-- The natives that every machine starts with, numbered from `id` on. -/
def natives (id : Nat) : List Native := [⟨id, "clock", 0, .clock⟩]

def defineNatives (s : Scopes) (i : ScopeId) (ns : List Native) : Scopes :=
  ns.foldl (fun s n => s.define i n.name (.native n)) s

def initial (clock : Clock) : Machine where
  scopes := defineNatives (Scopes.empty.add none .empty) 0 (natives 0)
  fields := #[]
  nextId := (natives 0).length
  globals := 0
  current := 0
  distances := .empty
  nextSite := 0
  printed := #[]
  lastError := none
  clock := clock

def global? (m : Machine) (name : String) : Option Value := m.scopes.local? m.globals name

def defineGlobal (m : Machine) (name : String) (v : Value) : Machine :=
  { m with scopes := m.scopes.define m.globals name v }

def fieldsOf (m : Machine) (i : Instance) : Bindings Value := m.fields.getD i.id .empty

end Machine

/-- A computation on the machine. -/
abbrev Exec := EStateM Exit Machine

namespace Exec

section

variable {α β : Type} {x : Exec α} {f : α → Exec β} {m m' : Machine}

theorem bind_of_ok {a : α} (hx : x m = .ok a m') : (x >>= f) m = f a m' := by
  show EStateM.bind x f m = _
  rw [EStateM.bind, hx]

theorem bind_of_error {e : Exit} (hx : x m = .error e m') : (x >>= f) m = .error e m' := by
  show EStateM.bind x f m = _
  rw [EStateM.bind, hx]

end

def ofResult {α : Type} : Except Exit α → Exec α
  | .ok a => pure a
  | .error e => throw e

def ofFault {α : Type} : Except Fault α → Exec α
  | .ok a => pure a
  | .error f => throw (.fault f)

def ofFailure {α : Type} : Except RuntimeError α → Exec α
  | .ok a => pure a
  | .error e => throw (.failed e)

def fail {α : Type} (t : Token) (cause : Cause) : Exec α := throw (.failed ⟨t, cause⟩)

def fault {α : Type} (f : Fault) : Exec α := throw (.fault f)

/-- Runs a computation with another active scope; whichever way it ends, the scope that was active
before is active again. -/
def within {α : Type} (scope : ScopeId) (act : Exec α) : Exec α := fun m =>
  let previous := m.current
  match act { m with current := scope } with
  | .ok a m => .ok a { m with current := previous }
  | .error e m => .error e { m with current := previous }

/-- A `return` ends the computation with its value; without one the value is `nil`. -/
def catchReturn (act : Exec Unit) : Exec Value := fun m =>
  match act m with
  | .ok () m => .ok .nil m
  | .error (.returned v) m => .ok v m
  | .error e m => .error e m

/-- Repeats `body` while `test` holds, at most `bound` times. -/
def loop : (bound : Nat) → (test : Exec Bool) → (body : Exec Unit) → Exec Unit
  | 0, _, _ => throw .unfinished
  | bound + 1, test, body => do
    if ← test then
      body
      loop bound test body

/-! ## Scopes and variables -/

def newScope (parent : ScopeId) (bindings : Bindings Value) : Exec ScopeId :=
  modifyGet fun m => (m.scopes.next, { m with scopes := m.scopes.add (some parent) bindings })

def define (name : String) (v : Value) : Exec Unit :=
  modify fun m => { m with scopes := m.scopes.define m.current name v }

/-- The value of a variable or of `this`: by its distance if it has one, else as a global. -/
def lookUp (name : Token) : Exec Value := do
  let m ← get
  match m.distances.find? name.site with
  | some d => ofFault (m.scopes.getAt m.current d name.lexeme)
  | none => ofFailure (m.scopes.lookup m.globals name)

/-- Changes a variable: by its distance if it has one, else as a global. -/
def assign (name : Token) (v : Value) : Exec Unit := do
  let m ← get
  -- Only the scope is found here, so that the store is not shared when it changes.
  let j ← match m.distances.find? name.site with
    | some d => ofFault (m.scopes.ancestor m.current d)
    | none => ofFailure (m.scopes.binder m.globals name)
  modify fun m => { m with scopes := m.scopes.define j name.lexeme v }

/-! ## Objects -/

def newId : Exec Nat := modifyGet fun m => (m.nextId, { m with nextId := m.nextId + 1 })

def newClosure (decl : FunDecl) (scope : ScopeId) (isInitializer : Bool) : Exec Closure := do
  let id ← newId
  pure ⟨id, decl, scope, isInitializer⟩

def newInstance (c : Class) : Exec Instance :=
  modifyGet fun m => (⟨m.fields.size, c⟩, { m with fields := m.fields.push .empty })

/-- A method for one instance: the same declaration, closed over a scope that holds `this`. -/
def bindMethod (f : Closure) (this : Value) : Exec Closure := do
  let scope ← newScope f.scope (Bindings.empty.set "this" this)
  newClosure f.decl scope f.isInitializer

/-- Makes a class with the given methods, closed over `scope`. Of two methods with one name the
later counts. -/
def newClass (name : String) (superclass : Option Class) (methods : List FunDecl)
    (scope : ScopeId) :
    Exec Class := do
  let methods ← methods.foldlM (fun (b : Bindings Closure) decl => do
    let f ← newClosure decl scope (decl.name.lexeme == Class.initializerName)
    pure (b.set decl.name.lexeme f)) .empty
  let id ← newId
  pure ⟨⟨id, name, methods⟩, superclass.elim [] Class.layers⟩

/-- A property of an instance: a field, or else a method bound to it. -/
def getProperty (i : Instance) (name : Token) : Exec Value := do
  let m ← get
  match (m.fieldsOf i).get? name.lexeme with
  | some v => pure v
  | none =>
    match i.cls.method? name.lexeme with
    | some f => .function <$> bindMethod f (.inst i)
    | none => fail name (.undefinedProperty name.lexeme)

def setField (i : Instance) (name : String) (v : Value) : Exec Unit :=
  modify fun m => { m with fields := m.fields.modify i.id (·.set name v) }

def readClock : Exec Float :=
  modifyGet fun m => (m.clock.now, { m with clock := m.clock.tick })

def callNative (n : Native) (args : List Value) : Exec Value := do
  match n.behaviour with
  | .clock => if args.isEmpty then .number <$> readClock else fault .wrongArguments
  | .first => pure (args.head?.getD .nil)
  | .join => pure (.text (String.join (args.map Value.shown)))
  | .count => pure (.number (Float.ofNat args.length))
  | .unimplemented => fault .unimplemented

/-- Only what can be called, with the number of arguments that it takes, is called. -/
def checkCall (paren : Token) (callee : Value) (count : Nat) : Exec Unit := do
  let arity ← match callee with
    | .function f => pure f.arity
    | .cls c => pure c.arity
    | .native n => if n.behaviour = .unimplemented then fault .unimplemented else pure n.arity
    | _ => fail paren .notCallable
  if count ≠ arity then fail paren (.wrongCount arity count)

def print (line : String) : Exec Unit := modify fun m => { m with printed := m.printed.push line }

/-- Calls a function, `run` being how its body is executed. The body has a scope of its own with the
parameters. An initializer returns the instance that it is bound to. -/
def invoke (f : Closure) (args : List Value) (run : List Stmt → Exec Unit) : Exec Value := do
  let params := Bindings.empty.setAll (f.decl.params.map Token.lexeme) args
  let scope ← newScope f.scope params
  let v ← catchReturn (within scope (run f.decl.body))
  if f.isInitializer then
    let m ← get
    ofFault (m.scopes.getAt f.scope 0 "this")
  else pure v

/-- Makes an instance, `run` being how the body of its initializer is executed. -/
def construct (c : Class) (args : List Value) (run : List Stmt → Exec Unit) : Exec Value := do
  let i ← newInstance c
  match c.initializer? with
  | some f =>
    let bound ← bindMethod f (.inst i)
    let _ ← invoke bound args run
    pure (.inst i)
  | none => pure (.inst i)

end Exec
end Lox
