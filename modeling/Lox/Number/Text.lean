import Lox.Number.Decimal

/-!
# The text of numbers

`Layout` holds what two ways of writing numbers differ in. `numeral` is how a number literal is
shown in a token, with a point in every positional numeral; `shown` is how a value is printed,
without `.0` and with all digits of a whole number below `10 ^ 21`. `read` is the value of a
numeral.
-/

namespace Lox.Number

def read (cs : List Char) : Float := Binary64.ofMagnitude false (Decimal.ofNumeral cs).nearest

/-- What a way of writing numbers decides. A leading digit of weight `10 ^ e` is written
positionally if `plainFrom ≤ e < plainBelow`, and with an exponent otherwise. -/
structure Layout where
  plainFrom : Int
  plainBelow : Int
  /-- Whole numbers in positional form end in `.0`. -/
  pointZero : Bool
  /-- Non-zero whole numbers below this bound are written with all their digits. -/
  wholeBelow : Nat

/-- Literals in tokens. -/
def Layout.literal : Layout := ⟨-4, 16, true, 0⟩

/-- Printed values. -/
def Layout.value : Layout := ⟨-4, 16, false, Nat.pow 10 21⟩

/-- An exponent is signed and has at least two digits. -/
def exponentText (e : Int) : List Char :=
  let ds := Nat.toDigits 10 e.natAbs
  (if e < 0 then '-' else '+') :: (if ds.length < 2 then '0' :: ds else ds)

namespace Layout

/-- A decimal in exponent form: one digit, the others behind a point, the exponent. -/
def scientific (ds : List Char) (e : Int) : List Char :=
  match ds with
  | [] => []
  | d :: [] => d :: 'e' :: exponentText e
  | d :: r => d :: '.' :: r ++ 'e' :: exponentText e

/-- Digits followed by `exponent` zeros, or with the point before the last `-exponent` of them. -/
def positional (l : Layout) (ds : List Char) (exponent : Int) : List Char :=
  match exponent with
  | .ofNat e => ds ++ List.replicate e '0' ++ (if l.pointZero then ['.', '0'] else [])
  | .negSucc e =>
    let places := e + 1
    if places < ds.length then ds.take (ds.length - places) ++ '.' :: ds.drop (ds.length - places)
    else '0' :: '.' :: List.replicate (places - ds.length) '0' ++ ds

def decimal (l : Layout) (d : Decimal) : List Char :=
  let ds := Nat.toDigits 10 d.digits
  let e := d.exponent + ds.length - 1
  if l.plainFrom ≤ e ∧ e < l.plainBelow then l.positional ds d.exponent else scientific ds e

def magnitude (l : Layout) (b : Nat) : List Char :=
  let n := Binary64.multiple b
  if n = 0 then l.positional ['0'] 0
  else if n % Binary64.one = 0 ∧ n / Binary64.one < l.wholeBelow then
    Nat.toDigits 10 (n / Binary64.one)
  else l.decimal (Decimal.shortest b)

def render (l : Layout) (x : Float) : String :=
  let b := Binary64.magnitude x
  if Binary64.infinityBits < b then "nan"
  else
    let digits := if b = Binary64.infinityBits then ['i', 'n', 'f'] else l.magnitude b
    String.ofList (if Binary64.isNegative x then '-' :: digits else digits)

end Layout

def literalText (x : Float) : String := Layout.literal.render x

/-- The text a number is printed as. -/
def text (x : Float) : String := Layout.value.render x

end Lox.Number
