import Lox.Token
import Lox.Number.Text

/-!
# Literals

The constants of the language, and the one that a number or string token stands for.
-/

namespace Lox

/-- The constants that can be written down in a program. -/
inductive Literal where
  | nil
  | bool (b : Bool)
  | number (x : Float)
  | text (s : String)

namespace Token

/-- The text between the quotes of a string. -/
def quotedText (t : Token) : String := String.ofList (t.lexeme.toList.drop 1).dropLast

/-- The constant that a number or string token stands for. -/
def literal? (t : Token) : Option Literal :=
  match t.kind with
  | .number => some (.number (Number.read t.lexeme.toList))
  | .string => some (.text t.quotedText)
  | _ => none

/-- The constant of a token, `nil` for those that have none. -/
def constant (t : Token) : Literal := t.literal?.getD .nil

/-- A token in words: its category, its lexeme and its constant. -/
def describe (t : Token) : String :=
  let shown :=
    match t.literal? with
    | some (.number x) => Number.literalText x
    | some (.text s) => s
    | _ => "None"
  t.kind.name ++ " " ++ t.lexeme ++ " " ++ shown

end Token
end Lox
