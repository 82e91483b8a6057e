import Lox.Session
import Lox.Text.Lines
import Lox.Text.Uppercase

/-!
# The log

A run leaves records of what its phases found, each with a `Severity`. `Report.records` is all of
them in order, `Report.log` the text of those that are severe enough.
-/

namespace Lox

inductive Severity where
  | trace
  | debug
  | info
  | success
  | warning
  | error
  | critical
  deriving DecidableEq, Repr

namespace Severity

/-- All of them, the least severe first. -/
def all : List Severity := [trace, debug, info, success, warning, error, critical]

def name : Severity → String
  | trace => "TRACE"
  | debug => "DEBUG"
  | info => "INFO"
  | success => "SUCCESS"
  | warning => "WARNING"
  | error => "ERROR"
  | critical => "CRITICAL"

def rank : Severity → Nat
  | trace => 5
  | debug => 10
  | info => 20
  | success => 25
  | warning => 30
  | error => 40
  | critical => 50

def ofName? (s : String) : Option Severity := all.find? (·.name == s)

/-- The threshold where nothing says otherwise. -/
def usual : Severity := warning

/-- The name of the threshold asked for: what is given explicitly counts before the setting. Case
and the blanks around it do not matter, and a blank name is no wish. -/
def asked (given setting : Option String) : String :=
  let s := ((given.or setting).getD usual.name).toList
  match Text.uppercase (Text.strip s) with
  | [] => usual.name
  | cs => String.ofList cs

end Severity

def unknownLevelMessage (name : String) : String := "Level '" ++ name ++ "' does not exist"

/-- One thing worth telling. -/
structure Record where
  severity : Severity
  message : String
  deriving DecidableEq, Repr

namespace Record

def columnWidth : Nat := 7

def text (r : Record) : String :=
  String.ofList (r.severity.name.toList.rightpad columnWidth ' ') ++ " | " ++ r.message ++ "\n"

/-- The records of one phase: its errors, then, if it came to its end, a summary with their
number. -/
def phase (name : String) (errors : List StaticError) (ended : Bool) (summary : String) :
    List Record :=
  errors.map (fun e => ⟨.debug, name ++ " error: " ++ e.report⟩) ++
    if ended then [⟨.debug, summary ++ " (" ++ toString errors.length ++ " errors)"⟩] else []

def failure (e : RuntimeError) : Record :=
  ⟨.info, "runtime error at line " ++ toString e.token.line ++ ": " ++ e.message⟩

end Record

namespace Report

/-- What a run has to tell. A phase that was not reached tells nothing. -/
def records (r : Report) : List Record :=
  Record.phase "scan" r.scanErrors true ("scanned " ++ toString r.tokens ++ " tokens") ++
    Record.phase "parse" r.parseErrors r.outcome.parsed
      ("parsed " ++ toString r.statements ++ " statements") ++
    r.findings.elim [] (fun f =>
      Record.phase "resolve" f.errors r.outcome.resolved
        ("resolved " ++ toString f.resolutions.length ++ " local references")) ++
    (r.failure?.map Record.failure).toList

/-- The log of a run, without what is below a threshold. -/
def log (r : Report) (threshold : Severity) : String :=
  String.join ((r.records.filter (threshold.rank ≤ ·.severity.rank)).map Record.text)

end Report
end Lox
