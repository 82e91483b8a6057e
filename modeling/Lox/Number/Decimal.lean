import Lox.Number.Binary64

/-!
# Decimals

A `Decimal` is a number of digits moved by a power of ten. `Decimal.nearest` reads one as a double,
`Decimal.ofNumeral` reads the digits of a numeral such as `12.50`, and `Decimal.shortest` writes a
double with the fewest digits that read back: it looks at the value's two neighbours among the
multiples of a power of ten, for smaller and smaller powers, until one of them reads back.
-/

namespace Lox

/-- The number `digits * 10 ^ exponent`. -/
structure Decimal where
  digits : Nat
  exponent : Int
  deriving DecidableEq, Repr

namespace Decimal

def ratio (d : Decimal) : Nat × Nat :=
  match d.exponent with
  | .ofNat e => (d.digits * Nat.pow 10 e, 1)
  | .negSucc e => (d.digits, Nat.pow 10 (e + 1))

def nearest (d : Decimal) : Nat := Binary64.nearest d.ratio.1 d.ratio.2

/-- A numeral: digits with at most one point among them. -/
def ofNumeral (cs : List Char) : Decimal where
  digits := Nat.ofDigitChars 10 (cs.filter (· ≠ '.')) 0
  exponent := -((cs.dropWhile (· ≠ '.')).length - 1 : Nat)

/-- The largest multiple of `10 ^ g` not above the magnitude `b`. -/
def below (b : Nat) (g : Int) : Decimal where
  digits :=
    match g with
    | .ofNat e => Binary64.multiple b / (Binary64.one * Nat.pow 10 e)
    | .negSucc e => Binary64.multiple b * Nat.pow 10 (e + 1) / Binary64.one
  exponent := g

def succ (d : Decimal) : Decimal := { d with digits := d.digits + 1 }

/-- How far the magnitude `b` lies above a decimal, against half a unit of its last digit. -/
def compareHalf (b : Nat) (d : Decimal) : Ordering :=
  match d.exponent with
  | .ofNat e =>
    compare (2 * Binary64.multiple b) ((2 * d.digits + 1) * Nat.pow 10 e * Binary64.one)
  | .negSucc e =>
    compare (2 * Binary64.multiple b * Nat.pow 10 (e + 1)) ((2 * d.digits + 1) * Binary64.one)

/-- The one of two neighbours that reads back. If both do, the nearer is taken, and half way between
them the one with the even last digit. -/
def choose (lower upper : Bool) (side : Ordering) (lo hi : Decimal) : Option Decimal :=
  match lower, upper with
  | true, true =>
    match side with
    | .lt => some lo
    | .gt => some hi
    | .eq => some (if lo.digits % 2 == 0 then lo else hi)
  | true, false => some lo
  | false, true => some hi
  | false, false => none

/-- The neighbour of `b` among the multiples of `10 ^ g` that reads back as `b`. -/
def hit? (b : Nat) (g : Int) : Option Decimal :=
  let lo := below b g
  choose (lo.nearest == b) (lo.succ.nearest == b) (compareHalf b lo) lo lo.succ

/-- All digits of the magnitude `b`. -/
def exact (b : Nat) : Decimal := ⟨Binary64.multiple b * Nat.pow 5 1074, -1074⟩

/-- A power of ten above the magnitude `b`: from its number of bits, `30103 / 100000` being a little
more than the decimal logarithm of two. -/
def roof (b : Nat) : Int :=
  ((Binary64.multiple b).log2 - 1073 : Int) * 30103 / 100000 + 1

/-- The fewest digits that read back, tried from the coarsest grid down. -/
def shortest (b : Nat) : Decimal :=
  ((List.range 24).findSome? fun (i : Nat) => hit? b (roof b - i)).getD (exact b)

end Decimal
end Lox
