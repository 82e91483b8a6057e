import Lox.Failure

/-!
# Operators

The meaning of the operators on values. An operator is given by its token, so that a failure can be
located; a token of any other category is a fault.
-/

namespace Lox.Operator

def fail {α : Type} (op : Token) (cause : Cause) : Except Exit α := .error (.failed ⟨op, cause⟩)

/-- `!` takes any value and `-` a number. -/
def unary (op : Token) (v : Value) : Except Exit Value :=
  match op.kind, v with
  | .bang, v => .ok (.bool !v.truthy)
  | .minus, .number x => .ok (.number (-x))
  | .minus, _ => fail op .operandNumber
  | kind, _ => .error (.fault (.unsupportedUnary kind))

/-- `+` adds numbers and joins texts. -/
def add (op : Token) : Value → Value → Except Exit Value
  | .number x, .number y => .ok (.number (x + y))
  | .text s, .text t => .ok (.text (s ++ t))
  | _, _ => fail op .operandsAddition

/-- The operators on two numbers. Division by zero gives an infinity or not-a-number. -/
def arithmetic? (kind : Kind) (x y : Float) : Option Value :=
  match kind with
  | .minus => some (.number (x - y))
  | .star => some (.number (x * y))
  | .slash => some (.number (x / y))
  | .greater => some (.bool (x > y))
  | .greaterEqual => some (.bool (x ≥ y))
  | .less => some (.bool (x < y))
  | .lessEqual => some (.bool (x ≤ y))
  | _ => none

/-- Equality takes any two values, `+` two numbers or two texts, and all else two numbers. That the
operands are numbers is checked before the category of the operator. -/
def binary (op : Token) (v w : Value) : Except Exit Value :=
  match op.kind with
  | .plus => add op v w
  | .equalEqual => .ok (.bool (v.equal w))
  | .bangEqual => .ok (.bool !(v.equal w))
  | kind =>
    match v, w with
    | .number x, .number y =>
      match arithmetic? kind x y with
      | some result => .ok result
      | none => .error (.fault (.unsupportedBinary kind))
    | _, _ => fail op .operandsNumbers

end Lox.Operator
