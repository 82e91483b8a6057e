import Lox.Command
import Lox.Path

/-!
# Scripts and the prompt

What the program writes and how it ends, as a function of its arguments and of what it finds around
it. A script is run once and its result is the exit code. The prompt runs every line by itself on
one machine, and goes on after errors.
-/

namespace Lox

namespace ExitCode

/-- For arguments that cannot be used. -/
def misuse : Nat := 2

/-- For a text with static errors. -/
def staticError : Nat := 65

/-- For a program that failed. -/
def failure : Nat := 70

end ExitCode

/-- Why there is no threshold for the log. -/
inductive LogError where
  /-- No severity has the name. -/
  | unknown (name : String)
  /-- The option for it was left without a value. -/
  | emptied
  deriving DecidableEq, Repr

def LogError.message : LogError → String
  | unknown name => unknownLevelMessage name
  | emptied => "The log level has no value"

inductive Ending where
  | exited (code : Nat)
  /-- The log has no threshold. -/
  | unlogged (e : LogError)
  /-- The name of the script cannot be looked up. -/
  | unreachable (e : PathError)
  /-- Evaluation ended in a way that is not reported to the user. -/
  | aborted (why : Exit)

/-- What is written to the two channels. -/
structure Written where
  output : String
  errors : String
  deriving DecidableEq, Repr

namespace Written

def nothing : Written := ⟨"", ""⟩

def andThen (a b : Written) : Written := ⟨a.output ++ b.output, a.errors ++ b.errors⟩

end Written

/-- All that the program writes, and its end. -/
structure Transcript where
  written : Written
  ending : Ending

/-- What the program finds around it. -/
structure Surroundings where
  directory : Path
  /-- What there is in the file system. -/
  entryAt? : Path → Option Entry
  /-- What can be read at the prompt. -/
  input : String
  /-- The setting for the log. -/
  setting : Option String
  clock : Clock

def asLine (s : String) : String := s ++ "\n"

/-- What is said when a text or its evaluation nests too deep. -/
def overflowReport : String := "Stack overflow."

namespace Report

/-- What a run ends with if it is not reported to the user. -/
def abort? (r : Report) : Option Exit :=
  match r.outcome with
  | .stopped (.failed _) | .stopped .overflow => none
  | .stopped why => some why
  | _ => none

/-- The errors of a run, as the user is told. -/
def diagnostics (r : Report) : List String :=
  r.staticErrors.map StaticError.report ++ (r.failure?.map RuntimeError.report).toList ++
    (if r.outcome.overflowed then [overflowReport] else [])

def exitCode (r : Report) : Nat :=
  if r.hadStaticError then ExitCode.staticError
  else if r.hadFailure || r.outcome.overflowed then ExitCode.failure
  else 0

end Report

/-- Runs a text: what it writes, the report and the machine afterwards. -/
def Machine.runShown (m : Machine) (l : Limits) (threshold : Severity) (source : String) :
    Written × Report × Machine :=
  let (r, m) := { m with printed := #[] }.run l source
  (⟨String.join (m.printed.toList.map asLine),
    r.log threshold ++ String.join (r.diagnostics.map asLine)⟩, r, m)

/-- A text with its line ends made one. -/
def normalized (text : String) : String := String.ofList (Text.unifyNewlines text.toList)

def runScript (m : Machine) (l : Limits) (threshold : Severity) (source : String) : Transcript :=
  let (w, r, _) := m.runShown l threshold (normalized source)
  ⟨w, (r.abort?.map Ending.aborted).getD (.exited r.exitCode)⟩

/-- What is written in front of a line that is read. -/
def promptMark : String := "> "

/-- Runs lines until there are none. The mark is also written where the input is found to end. -/
def runLines (l : Limits) (threshold : Severity) (m : Machine) : List String → Transcript
  | [] => ⟨⟨asLine promptMark, ""⟩, .exited 0⟩
  | line :: lines =>
    let (w, r, m) := m.runShown l threshold line
    let w := Written.andThen ⟨promptMark, ""⟩ w
    match r.abort? with
    | some why => ⟨w, .aborted why⟩
    | none =>
      let rest := runLines l threshold m lines
      ⟨w.andThen rest.written, rest.ending⟩

def inputLines (input : String) : List String :=
  (Text.lines (Text.unifyNewlines input.toList)).map String.ofList

namespace Command

/-- The threshold of the log: the one in the arguments, else the one of the setting. A setting that
names no severity is refused. -/
def threshold (c : Command) (setting : Option String) : Except LogError Severity :=
  match c.wish with
  | .threshold t => pure t
  | .emptied => throw .emptied
  | .none =>
    let name := Severity.asked none setting
    match Severity.ofName? name with
    | some t => pure t
    | none => throw (.unknown name)

def scriptTranscript (l : Limits) (s : Surroundings) (threshold : Severity) (script : String) :
    Except PathError Transcript := do
  let path ← s.directory.resolve script
  match ← path.file? s.entryAt? with
  | none =>
    pure ⟨⟨"", "pylox: script not found: " ++ path.text ++ "\n"⟩, .exited ExitCode.misuse⟩
  | some source => pure (runScript (Machine.initial s.clock) l threshold source)

def transcript (c : Command) (l : Limits) (s : Surroundings) : Transcript :=
  match c.threshold s.setting with
  | .error e => ⟨.nothing, .unlogged e⟩
  | .ok threshold =>
    match c.script with
    | none => runLines l threshold (Machine.initial s.clock) (inputLines s.input)
    | some script =>
      match scriptTranscript l s threshold script with
      | .ok t => t
      | .error e => ⟨.nothing, .unreachable e⟩

end Command

def transcript (arguments : List String) (l : Limits) (s : Surroundings) : Transcript :=
  match Command.ofArguments arguments with
  | .error e => ⟨⟨"", e.report⟩, .exited ExitCode.misuse⟩
  | .ok .help => ⟨⟨helpText, ""⟩, .exited 0⟩
  | .ok (.execute c) => c.transcript l s

end Lox
