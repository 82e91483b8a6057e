import Lox.Segment
import Lox.Report

/-!
# Scanning

`scan` walks over the segments of a text with a line counter and reads off the tokens and the
errors. The counter is raised at each newline between the other segments and at each line end inside
a string, and nowhere else. A token has the line that the counter shows behind it, and the next free
site. The end of the text is a token of its own, kept apart from the others.
-/

namespace Lox

/-- The line counter behind the characters of a string. -/
def lineThrough : Nat → List Char → Nat
  | line, [] => line
  | line, c :: cs => lineThrough (if c = '\n' then line + 1 else line) cs

/-- The line counter behind a segment. A comment leaves its line end to the next segment, and no
other segment is looked into. -/
def Segment.lineAfter (line : Nat) : Segment → Nat
  | newline => line + 1
  | token kind lexeme => if kind = .string then lineThrough line lexeme else line
  | unterminated text => lineThrough line text
  | blank _ | comment _ | unexpected _ => line

/-- What scanning finds: the tokens, the end of the text, and the errors, each in order. -/
structure Scan where
  tokens : List Token
  eof : Token
  errors : List StaticError

namespace Scan

/-- The tokens of a list of segments that starts on the given line and at the given site. -/
def tokensOf : Nat → Nat → List Segment → List Token
  | _, _, [] => []
  | line, site, s :: rest =>
    let line' := s.lineAfter line
    match s with
    | .token kind lexeme =>
      ⟨kind, String.ofList lexeme, line', site⟩ :: tokensOf line' (site + 1) rest
    | _ => tokensOf line' site rest

def errorsOf : Nat → List Segment → List StaticError
  | _, [] => []
  | line, s :: rest =>
    let line' := s.lineAfter line
    match s with
    | .unexpected _ => ⟨line', .unstated, .unexpectedCharacter⟩ :: errorsOf line' rest
    | .unterminated _ => ⟨line', .unstated, .unterminatedString⟩ :: errorsOf line' rest
    | _ => errorsOf line' rest

/-- The line counter behind a list of segments that starts on the given line. -/
def lineAtEnd : Nat → List Segment → Nat
  | line, [] => line
  | line, s :: rest => lineAtEnd (s.lineAfter line) rest

def ofChars (site : Nat) (cs : List Char) : Scan :=
  let pieces := segments cs
  let tokens := tokensOf 1 site pieces
  { tokens
    eof := ⟨.eof, "", lineAtEnd 1 pieces, site + tokens.length⟩
    errors := errorsOf 1 pieces }

def all (s : Scan) : List Token := s.tokens ++ [s.eof]

end Scan

/-- Scans a text whose first token gets the given site. -/
def scan (site : Nat) (source : String) : Scan := Scan.ofChars site source.toList

end Lox
