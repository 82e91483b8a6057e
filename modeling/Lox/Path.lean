/-!
# Paths

A path is the list of its steps from the root. Names are resolved by their text alone: `.` stays and
`..` goes back one step. `Path.file?` walks a path through the entries of a file system, which
bounds the size of names and of whole paths.
-/

namespace Lox

/-- The names on the way from the root. -/
structure Path where
  steps : List String
  deriving DecidableEq, Repr

inductive Entry where
  | directory
  | file (text : String)
  deriving DecidableEq, Repr

inductive PathError where
  /-- It holds the character that ends names. -/
  | zeroCharacter
  /-- The path, or a name on it, is too long. -/
  | tooLong
  deriving DecidableEq, Repr

def PathError.message : PathError → String
  | zeroCharacter => "embedded null byte"
  | tooLong => "File name too long"

namespace Path

def root : Path := ⟨[]⟩

def child (p : Path) (name : String) : Path := ⟨p.steps ++ [name]⟩

def step (p : Path) (name : String) : Path :=
  if name = "" || name = "." then p
  else if name = ".." then ⟨p.steps.dropLast⟩
  else p.child name

/-- Where a name leads from a directory. A name that starts with a slash leads there from the
root. -/
def resolve (directory : Path) (name : String) : Except PathError Path :=
  if name.toList.contains (Char.ofNat 0) then .error .zeroCharacter
  else
    let start := if name.toList.head? = some '/' then root else directory
    .ok ((name.splitOn "/").foldl step start)

def text (p : Path) : String := "/" ++ "/".intercalate p.steps

/-- A path and all those above it, from the root down. -/
def way (p : Path) : List Path := (List.range (p.steps.length + 1)).map fun n => ⟨p.steps.take n⟩

/-- The most bytes of one name. -/
def maxNameSize : Nat := 255

/-- The most bytes of a whole path. -/
def maxSize : Nat := 4095

/-- The text of the file that a list of steps leads to from a directory. A name is only looked at if
all before it are directories. -/
def fileFrom? (entryAt? : Path → Option Entry) (here : Path) :
    List String → Except PathError (Option String)
  | [] => .ok none
  | name :: rest =>
    if maxNameSize < name.utf8ByteSize then .error .tooLong
    else
      match entryAt? (here.child name) with
      | none => .ok none
      | some .directory => fileFrom? entryAt? (here.child name) rest
      | some (.file text) => .ok (if rest.isEmpty then some text else none)

/-- The text of the file at a path, if there is a file. -/
def file? (entryAt? : Path → Option Entry) (p : Path) : Except PathError (Option String) :=
  if maxSize < p.text.utf8ByteSize then .error .tooLong else fileFrom? entryAt? root p.steps

end Path
end Lox
