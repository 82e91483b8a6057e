import Lox.Console
import Std.Time.DateTime

/-!
# The executable

Reads arguments, files and lines, and writes what the library says.
-/

namespace Lox

def settingVariable : String := "PYLOX_LOG_LEVEL"

/-- The seconds since the epoch. -/
def now : IO Float := do
  let t ← Std.Time.Timestamp.now
  return Float.ofInt t.toNanosecondsSinceUnixEpoch.val / 1e9

def write (w : Written) : IO Unit := do
  let out ← IO.getStdout
  out.putStr w.output
  out.flush
  IO.eprint w.errors

def finish : Ending → IO UInt32
  | .exited code => pure code.toUInt32
  | .unlogged e => do
    IO.eprintln e.message
    pure 1
  | .unreachable e => do
    IO.eprintln e.message
    pure 1
  | .aborted _ => do
    IO.eprintln "aborted"
    pure 1

/-- What there is at a path. What cannot be read is not there. -/
def readEntry (path : Path) : IO (Option Entry) := do
  let place := (← IO.currentDir).join path.text
  if ← place.isDir then pure (some .directory)
  else
    try return some (.file (← IO.FS.readFile place))
    catch _ => pure none

/-- What there is on the way to a path. -/
def entriesTo (path : Path) : IO (List (Path × Option Entry)) :=
  path.way.mapM fun p => return (p, ← readEntry p)

def writeMark : IO Unit := write ⟨promptMark, ""⟩

/-- The prompt: a line is run as soon as it is read, at the time it then is. What is read at once
may hold several lines. -/
partial def prompt (threshold : Severity) (m : Machine) : List String → IO UInt32
  | [] => do
    writeMark
    let text ← (← IO.getStdin).getLine
    if text.isEmpty then
      write ⟨"\n", ""⟩
      return 0
    prompt threshold m (inputLines text)
  | line :: lines => do
    let clock := Clock.still (← now)
    let (w, r, m) := Machine.runShown { m with clock } .standard threshold line
    write w
    match r.abort? with
    | some why => finish (.aborted why)
    | none =>
      unless lines.isEmpty do writeMark
      prompt threshold m lines

def runProgram (arguments : List String) : IO UInt32 := do
  let setting ← IO.getEnv settingVariable
  let directory : Path := ⟨((← IO.currentDir).toString.splitOn "/").filter (· ≠ "")⟩
  let clock := Clock.still (← now)
  match Command.ofArguments arguments with
  | .ok (.execute ⟨wish, none⟩) =>
    match Command.threshold ⟨wish, none⟩ setting with
    | .error e => finish (.unlogged e)
    | .ok threshold => prompt threshold (Machine.initial clock) []
  | request =>
    let entries ← match request with
      | .ok (.execute ⟨_, some script⟩) =>
        match directory.resolve script with
        | .ok path => entriesTo path
        | .error _ => pure []
      | _ => pure []
    let entryAt? (p : Path) : Option Entry := (entries.lookup p).join
    let t := transcript arguments .standard ⟨directory, entryAt?, "", setting, clock⟩
    write t.written
    finish t.ending

end Lox

def main (arguments : List String) : IO UInt32 := Lox.runProgram arguments
