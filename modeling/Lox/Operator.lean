import Lox.Diagnostic
import Lox.Value

/-!
# Operators on values

What the operators that always evaluate their operands do with them. Numbers
follow the rules of floating-point arithmetic, so a division by zero is no
error; a sum may also join two strings, and any two values can be compared for
equality.
-/

namespace Lox

/-- Apply an operation that is meant for numbers alone. -/
def onNumbers (result : Float → Float → Value) : Value → Value → Except RuntimeCause Value
  | .number a, .number b => .ok (result a b)
  | _, _ => .error .operandsNotNumbers

/-- The sum of two numbers, or two strings one after the other. -/
def sum : Value → Value → Except RuntimeCause Value
  | .number a, .number b => .ok (.number (a + b))
  | .string a, .string b => .ok (.string (a ++ b))
  | _, _ => .error .operandsNotAddable

/-- What an operator makes of its two operands. -/
def BinaryOp.apply : BinaryOp → Value → Value → Except RuntimeCause Value
  | add => sum
  | subtract => onNumbers fun a b => .number (a - b)
  | multiply => onNumbers fun a b => .number (a * b)
  | divide => onNumbers fun a b => .number (a / b)
  | less => onNumbers fun a b => .bool (a < b)
  | lessEqual => onNumbers fun a b => .bool (a ≤ b)
  | greater => onNumbers fun a b => .bool (b < a)
  | greaterEqual => onNumbers fun a b => .bool (b ≤ a)
  | equal => fun a b => .ok (.bool (a.equals b))
  | notEqual => fun a b => .ok (.bool (!a.equals b))

/-- What an operator makes of its one operand. -/
def UnaryOp.apply : UnaryOp → Value → Except RuntimeCause Value
  | not, v => .ok (.bool (!v.isTruthy))
  | negate, .number a => .ok (.number (-a))
  | negate, _ => .error .operandNotNumber

/-- Whether a left operand decides the outcome, the right one being skipped. -/
def LogicalOp.isDecidedBy : LogicalOp → Value → Bool
  | or, v => v.isTruthy
  | and, v => !v.isTruthy

end Lox
