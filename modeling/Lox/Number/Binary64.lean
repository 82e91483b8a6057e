/-!
# Doubles as natural numbers

Apart from its sign, a finite double is a multiple of the least positive one, `2 ^ -1074`. Its bits
below the sign, read as a number `b`, say which multiple: with `scale b` the exponent field lowered
by one (and zero for the subnormals), the multiple is `significand b * 2 ^ scale b`, where
`significand b = b - scale b * 2 ^ 52`. `nearest num den` goes back: the bits of the double nearest
to the quotient `num / den`, ties to the even significand.
-/

namespace Lox.Binary64

/-- The bits of the infinities, without the sign; all finite magnitudes are below it. -/
def infinityBits : Nat := 2047 * Nat.pow 2 52

/-- Whether the sign bit is set; it tells `-0` from `0`. -/
def isNegative (x : Float) : Bool := Nat.pow 2 63 ≤ x.toBits.toNat

def magnitude (x : Float) : Nat := x.toBits.toNat % Nat.pow 2 63

/-- The double with the given sign and magnitude bits. -/
def ofMagnitude (negative : Bool) (b : Nat) : Float :=
  Float.ofBits (UInt64.ofNat (if negative then Nat.pow 2 63 + b else b))

def scale (b : Nat) : Nat := b / Nat.pow 2 52 - 1

def significand (b : Nat) : Nat := b - scale b * Nat.pow 2 52

/-- The finite magnitude `b` as a multiple of `2 ^ -1074`. -/
def multiple (b : Nat) : Nat := significand b * Nat.pow 2 (scale b)

/-- How many least doubles make one. -/
def one : Nat := Nat.pow 2 1074

/-- The quotient rounded to the nearest integer, a half to the even one. -/
def roundQuotient (num den : Nat) : Nat :=
  let q := num / den
  let r := 2 * (num % den)
  if r < den then q
  else if den < r then q + 1
  else q + q % 2

/-- The magnitude nearest to `num / den`: the quotient counted in least doubles is cut to its
leading 53 bits and rounded. A carry out of the significand moves into the scale by itself, since
the two lie side by side in the bits; what is too large becomes infinite. -/
def nearest (num den : Nat) : Nat :=
  let k := (num * one / den).log2 - 52
  min (k * Nat.pow 2 52 + roundQuotient (num * one) (den * Nat.pow 2 k)) infinityBits

end Lox.Binary64
