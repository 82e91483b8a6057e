import Lox.Eval
import Lox.Grammar.Stmt
import Lox.Scan
import Lox.Walk

/-!
# Sessions

A session is one machine and what is done with it, one thing after another. `Machine.run` takes a
text through scanning, parsing, resolution and execution, and reports on each. Nothing is executed
if the text has a static error, and parsing, resolution and execution all end where they would nest
deeper than the limit. What one run defines, later runs see. The other operations are those of a
host that works on the values of a machine directly.
-/

namespace Lox

/-- How deep a text may nest, and how often a loop may repeat. -/
structure Limits where
  depth : Nat
  iterations : Nat

def Limits.standard : Limits := ⟨6000, Nat.pow 10 15⟩

/-- What became of a program. -/
inductive Outcome where
  /-- Static errors: nothing was executed. -/
  | refused
  | completed
  | stopped (why : Exit)
  /-- The text nests too deep to be read. -/
  | unread
  /-- The program nests too deep to be resolved. -/
  | unresolved

/-- What the phases before execution found. -/
structure Phases where
  /-- The number of tokens, with the end of the text. -/
  tokens : Nat
  scanErrors : List StaticError
  /-- The number of statements that could be read. -/
  statements : Nat
  parseErrors : List StaticError
  /-- Missing if there were errors before. -/
  findings : Option Findings

/-- What a run found out. -/
structure Report extends Phases where
  outcome : Outcome

namespace Outcome

def overflowed : Outcome → Bool
  | unread | unresolved | stopped .overflow => true
  | _ => false

def parsed : Outcome → Bool
  | unread => false
  | _ => true

/-- Whether resolution, if it was begun, came to its end. -/
def resolved : Outcome → Bool
  | unresolved => false
  | _ => true

end Outcome

namespace Report

/-- A run that ended before the static errors were known reports none. -/
def staticErrors (r : Report) : List StaticError :=
  if r.outcome.parsed && r.outcome.resolved then
    r.scanErrors ++ r.parseErrors ++ r.findings.elim [] Findings.errors
  else []

def failure? (r : Report) : Option RuntimeError :=
  match r.outcome with
  | .stopped (.failed e) => some e
  | _ => none

def hadStaticError (r : Report) : Bool := !r.staticErrors.isEmpty

def hadFailure (r : Report) : Bool := r.failure?.isSome

def ok (r : Report) : Bool := !r.hadStaticError && !r.hadFailure

def description (r : Report) : String :=
  let failure := r.failure?.elim "None" fun e => "LoxRuntimeError(" ++ Text.quoted e.message ++ ")"
  "<RunResult ok=" ++ (if r.ok then "True" else "False") ++ " static_errors=" ++
    toString r.staticErrors.length ++ " exception=" ++ failure ++ ">"

end Report

/-- What the phases before execution make of a text. -/
structure Analysis extends Phases where
  /-- The program, or what becomes of a text that is not executed. -/
  program : Except Outcome (List Stmt)

/-- Parses and resolves a text. It is resolved if there are no errors before, and may be executed if
there are none then either. -/
def Scan.analyse (s : Scan) (depth : Nat) : Analysis :=
  match parseWithin depth s.tokens s.eof with
  | .error errors => ⟨⟨s.all.length, s.errors, 0, errors, none⟩, .error .unread⟩
  | .ok p =>
    let phases := Phases.mk s.all.length s.errors p.statements.length p.errors
    if s.errors.isEmpty && p.errors.isEmpty then
      match resolveWithin depth p.statements with
      | .error f => ⟨phases f, .error .unresolved⟩
      | .ok f => ⟨phases f, if f.errors.isEmpty then .ok p.statements else .error .refused⟩
    else ⟨phases none, .error .refused⟩

def Analysis.resolutions (a : Analysis) : List Resolution := a.findings.elim [] Findings.resolutions

namespace Machine

/-- Scans a text. Its tokens get sites that no token had before. -/
def scan (m : Machine) (source : String) : Scan × Machine :=
  let s := Lox.scan m.nextSite source
  (s, { m with nextSite := m.nextSite + s.tokens.length })

/-- Adds what was resolved to the table of distances. -/
def record (m : Machine) (rs : List Resolution) : Machine :=
  { m with distances := m.distances.recordAll rs }

/-- Executes statements. A failure is kept as the last error. -/
def execute (m : Machine) (l : Limits) (program : List Stmt) : Outcome × Machine :=
  match execAll l.iterations l.depth program { m with lastError := none } with
  | .ok () m => (.completed, m)
  | .error (.failed e) m => (.stopped (.failed e), { m with lastError := some e })
  | .error why m => (.stopped why, m)

/-- Runs a text. What was resolved stays in the table, also if nothing is executed. -/
def run (m : Machine) (l : Limits) (source : String) : Report × Machine :=
  let (s, m) := m.scan source
  let a := s.analyse l.depth
  let m := m.record a.resolutions
  match a.program with
  | .ok program =>
    let (outcome, m) := m.execute l program
    (⟨a.toPhases, outcome⟩, m)
  | .error outcome => (⟨a.toPhases, outcome⟩, m)

/-- Executes what can be read of a text, without resolution: every name is taken for a global. -/
def runUnresolved (m : Machine) (l : Limits) (source : String) : Outcome × Machine :=
  let (s, m) := m.scan source
  match parseWithin l.depth s.tokens s.eof with
  | .error _ => (.unread, m)
  | .ok p => m.execute l p.statements

/-- Resolves and executes what can be read of a text, whatever the errors. -/
def runUnchecked (m : Machine) (l : Limits) (source : String) : Findings × Outcome × Machine :=
  let (s, m) := m.scan source
  match parseWithin l.depth s.tokens s.eof with
  | .error _ => (.none, .unread, m)
  | .ok p =>
    match resolveWithin l.depth p.statements with
    | .error f => (f, .unresolved, m.record f.resolutions)
    | .ok f => (f, (m.record f.resolutions).execute l p.statements)

end Machine

/-! ## Host operations -/

namespace Exec

def global (name : String) : Exec Value := do
  match (← get).global? name with
  | some v => pure v
  | none => fault (.unknownGlobal name)

def defineGlobal (name : String) (v : Value) : Exec Unit := modify (·.defineGlobal name v)

def newNative (name : String) (arity : Nat) (behaviour : Behaviour) : Exec Native := do
  let id ← newId
  pure ⟨id, name, arity, behaviour⟩

def asInstance : Value → Exec Instance
  | .inst i => pure i
  | _ => fault .wrongSort

def asClass : Value → Exec Class
  | .cls c => pure c
  | _ => fault .wrongSort

def asFunction : Value → Exec Closure
  | .function f => pure f
  | _ => fault .wrongSort

/-- The method of a class bound to any value. -/
def findMethod (c : Class) (this : Value) (name : String) : Exec (Option Closure) :=
  match c.method? name with
  | some f => some <$> bindMethod f this
  | none => pure none

/-- Executing a tree of no known form forgets the last error first, as every execution does. -/
def executeUnknown (f : Fault) : Exec Unit := do
  modify fun m => { m with lastError := none }
  fault f

end Exec
end Lox
