import Workings.Sheet.Basic

/-!
# Literal numbers

A number too small to matter is taken for zero, and one too large for infinite if the options say so.
-/

namespace Workings

/-- The number that a literal is taken for. -/
def Options.clamp (options : Options) (n : Number) : Number :=
  let value := n.toFloat
  if value.abs < options.minValue then 0
  else if options.clampLiterals && decide (options.maxValue < value) then .float infinity
  else if options.clampLiterals && decide (value < -options.maxValue) then .float (-infinity)
  else n

/-- Simplifies a number. -/
def Simplify.literal (n : Number) : Work Expr := do
  let clamped := (← Work.options).clamp n
  if !(clamped == n) then
    Work.change (.num n) (.num clamped)
  return .num clamped

end Workings
