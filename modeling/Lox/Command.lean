import Lox.Log
import Lox.Text.Digit
import Lox.Text.Quoted

/-!
# The command line

Arguments are first told apart one by one (`Argument.of`), then read in order
(`Command.ofArguments`). The program takes one script at most, and two options. An option may be cut
short as long as it cannot be mistaken, and may hold its value behind an equals sign. Behind `--`
nothing is an option.
-/

namespace Lox

/-- What the arguments say about the threshold of the log. -/
inductive Wish where
  | none
  | threshold (s : Severity)
  /-- The option was given, but its value was a separator, which is never taken for a value. -/
  | emptied
  deriving DecidableEq, Repr

structure Command where
  /-- The threshold of the log. -/
  wish : Wish
  /-- The name of the script. Without one, lines are read from a prompt. -/
  script : Option String

inductive UsageError where
  | ambiguous (argument : String)
  /-- Help was asked for with a value. -/
  | helpValue (value : String)
  | thresholdMissing
  | thresholdUnknown (name : String)
  | unrecognized (arguments : List String)
  deriving DecidableEq, Repr

/-- One argument by itself. -/
inductive Argument where
  | plain (text : String)
  /-- The first `--`. -/
  | separator
  /-- Help, with a value that it does not take or without. -/
  | help (value : Option String)
  /-- The threshold, with its value if that is in the same argument. -/
  | threshold (value : Option String)
  /-- Looks like an option and is none. -/
  | unknown (text : String)
  deriving DecidableEq, Repr

namespace Argument

def separatorText : String := "--"

def helpName : String := "--help"

def thresholdName : String := "--log-level"

/-- A long option and the value behind its equals sign. -/
def longParts (cs : List Char) : List Char × Option String :=
  match cs.dropWhile (· ≠ '=') with
  | [] => (cs, none)
  | _ :: value => (cs.takeWhile (· ≠ '='), some (String.ofList value))

/-- The negative decimals are no options: a minus, and digits with at most one point among them that
a digit follows. A line end behind them does not matter. -/
def isNegativeDecimal : List Char → Bool
  | '-' :: cs =>
    let cs := if cs.getLast? = some '\n' then cs.dropLast else cs
    match cs.dropWhile Text.isDecimalDigit with
    | [] => !cs.isEmpty
    | '.' :: fraction => !fraction.isEmpty && fraction.all Text.isDecimalDigit
    | _ => false
  | _ => false

/-- What starts with a dash and is neither option. A blank shows that no option is meant. -/
def other (cs : List Char) : Argument :=
  let text := String.ofList cs
  if isNegativeDecimal cs || cs.contains ' ' then plain text else unknown text

/-- The short form of help with a value of the given characters. Repeating the letter changes
nothing; what is left then is a value. -/
def shortHelpWith (value : List Char) : Argument :=
  match value.dropWhile (· = 'h') with
  | [] => help none
  | cs => help (some (String.ofList cs))

/-- The short form of help, by what is behind it: an equals sign and a value, or the value at
once. -/
def shortHelp : List Char → Argument
  | ['='] => help (some "")
  | '=' :: value => shortHelpWith value
  | behind => shortHelpWith behind

/-- A long option, which may be cut short. -/
def long (cs : List Char) : Except UsageError Argument :=
  let (name, value) := longParts cs
  match name.isPrefixOf helpName.toList, name.isPrefixOf thresholdName.toList with
  | true, true => throw (.ambiguous (String.ofList cs))
  | true, false => pure (help value)
  | false, true => pure (threshold value)
  | false, false => pure (other cs)

/-- An argument in front of the separator. -/
def of (text : String) : Except UsageError Argument :=
  match text.toList with
  | '-' :: '-' :: cs => long ('-' :: '-' :: cs)
  | '-' :: 'h' :: cs => pure (shortHelp cs)
  | '-' :: c :: cs => pure (other ('-' :: c :: cs))
  | _ => pure (plain text)

def ofAll : List String → Except UsageError (List Argument)
  | [] => pure []
  | text :: texts =>
    if text = separatorText then pure (separator :: texts.map plain)
    else return (← of text) :: (← ofAll texts)

end Argument

namespace UsageError

def thresholdNames : String := ", ".intercalate (Severity.all.map (Text.quoted ·.name))

def message : UsageError → String
  | ambiguous a =>
    "ambiguous option: " ++ a ++ " could match " ++ Argument.helpName ++ ", " ++
      Argument.thresholdName
  | helpValue v => "argument -h/--help: ignored explicit argument " ++ Text.quoted v
  | thresholdMissing => "argument --log-level: expected one argument"
  | thresholdUnknown name =>
    "argument --log-level: invalid choice: " ++ Text.quoted name ++ " (choose from " ++
      thresholdNames ++ ")"
  | unrecognized as => "unrecognized arguments: " ++ " ".intercalate as

end UsageError

/-- What a command line leads to. -/
inductive Request where
  | help
  | execute (c : Command)

namespace Command

/-- The wish for a threshold by its name, in any case. -/
def wishOf (name : String) : Except UsageError Wish :=
  if name = Argument.separatorText then pure .emptied
  else
    let name := String.ofList (Text.uppercase name.toList)
    match Severity.ofName? name with
    | some s => pure (.threshold s)
    | none => throw (.thresholdUnknown name)

/-- What was read so far. -/
structure Progress where
  command : Command
  /-- Whether a script can still be given. -/
  scriptOpen : Bool
  /-- What nothing was made of, in order. -/
  extras : List String

namespace Progress

def start : Progress := ⟨⟨.none, none⟩, true, []⟩

def wish (p : Progress) (w : Wish) : Progress := { p with command := { p.command with wish := w } }

def script (p : Progress) (name : Option String) : Progress :=
  { p with command := { p.command with script := name }, scriptOpen := false }

def extra (p : Progress) (text : String) : Progress := { p with extras := p.extras ++ [text] }

end Progress

/-- Reads arguments in order. Help ends the reading; of several wishes the last counts. The first
plain argument is the script, and a separator beside it belongs to it. -/
def read (p : Progress) : List Argument → Except UsageError Request
  | [] => if p.extras.isEmpty then pure (.execute p.command) else throw (.unrecognized p.extras)
  | .help none :: _ => pure .help
  | .help (some value) :: _ => throw (.helpValue value)
  | .threshold (some value) :: as => do read (p.wish (← wishOf value)) as
  | .threshold none :: .plain value :: as => do read (p.wish (← wishOf value)) as
  | .threshold none :: _ => throw .thresholdMissing
  | .unknown text :: as => read (p.extra text) as
  | .plain text :: .separator :: as =>
    if p.scriptOpen then read (p.script text) as
    else read ((p.extra text).extra Argument.separatorText) as
  | .plain text :: as => if p.scriptOpen then read (p.script text) as else read (p.extra text) as
  | .separator :: .plain text :: as =>
    if p.scriptOpen then read (p.script text) as
    else read ((p.extra Argument.separatorText).extra text) as
  | .separator :: as =>
    if p.scriptOpen then read (p.script none) as else read (p.extra Argument.separatorText) as

def ofArguments (texts : List String) : Except UsageError Request := do
  read .start (← Argument.ofAll texts)

end Command

/-! ## What the program says about itself -/

def usage : String := "usage: pylox [--log-level LEVEL] [script.lox]\n"

def helpLines : List String :=
  ["",
    "Run a Lox script, or start an interactive prompt when no script is given.",
    "",
    "positional arguments:",
    "  script",
    "",
    "options:",
    "  -h, --help            show this help message and exit",
    "  --log-level \x7b" ++ ",".intercalate (Severity.all.map Severity.name) ++ "\x7d",
    "                        diagnostic log level on stderr (default:",
    "                        $PYLOX_LOG_LEVEL or WARNING)"]

def helpText : String := usage ++ String.join (helpLines.map (· ++ "\n"))

def UsageError.report (e : UsageError) : String := usage ++ "pylox: error: " ++ e.message ++ "\n"

end Lox
