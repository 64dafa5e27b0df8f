import Workings.Expr.Basic

/-!
# Free symbols and substitution

The variable of an integral is bound in the integrand and free in the bounds. The variables of a
derivative occur in it, but nothing is put in their place there.
-/

namespace Workings

namespace Expr

mutual

/-- Whether a symbol occurs free. -/
def mentions (name : String) : Expr → Bool
  | .num _ => false
  | .sym other => other == name
  | .sum terms => anyMentions name terms
  | .prod factors => anyMentions name factors
  | .pow base exponent => mentions name base || mentions name exponent
  | .call _ functional subscript superscript =>
    anyMentions name functional || anyMentions name subscript || anyMentions name superscript
  | .deriv body _ => mentions name body
  | .integral body var lower upper =>
    (var != name && mentions name body) || optionMentions name lower ||
      optionMentions name upper

/-- Whether a symbol occurs free in one of the expressions. -/
def anyMentions (name : String) : List Expr → Bool
  | [] => false
  | e :: es => mentions name e || anyMentions name es

/-- Whether a symbol occurs free in an expression that may be missing. -/
def optionMentions (name : String) : Option Expr → Bool
  | none => false
  | some e => mentions name e

end

mutual

/-- Puts `value` in the place of every free occurrence of a symbol. A derivative by that symbol stays
as it is. -/
def substitute (e : Expr) (name : String) (value : Expr) : Expr :=
  match e with
  | .num n => .num n
  | .sym other => if other == name then value else .sym other
  | .sum terms => .sum (substituteAll terms name value)
  | .prod factors => .prod (substituteAll factors name value)
  | .pow base exponent => .pow (substitute base name value) (substitute exponent name value)
  | .call f functional subscript superscript =>
    .call f (substituteAll functional name value) (substituteAll subscript name value)
      (substituteAll superscript name value)
  | .deriv body vars =>
    if vars.any (·.1 == name) then .deriv body vars
    else .deriv (substitute body name value) vars
  | .integral body var lower upper =>
    .integral (if var == name then body else substitute body name value) var
      (substituteOption lower name value) (substituteOption upper name value)

/-- `substitute` in every expression of a list. -/
def substituteAll (es : List Expr) (name : String) (value : Expr) : List Expr :=
  match es with
  | [] => []
  | e :: es => substitute e name value :: substituteAll es name value

/-- `substitute` in an expression that may be missing. -/
def substituteOption (e : Option Expr) (name : String) (value : Expr) : Option Expr :=
  match e with
  | none => none
  | some e => some (substitute e name value)

end

end Expr

end Workings
