import Workings.Expr.Basic

/-!
# Bindings

The values of symbols and the numeric implementations of functions during a solution. Values are
kept in the order of their names. A function is bound to its whole signature or to its name alone.
-/

namespace Workings

/-- A numeric implementation of a function, given its parenthesized, subscript and superscript
arguments. It may refuse them with a reason. -/
abbrev NumericFunction := List Number → List Number → List Number → Except String Number

/-- What symbols and functions stand for. -/
structure Bindings where
  values : List (String × Expr) := []
  bySignature : List (Signature × NumericFunction) := []
  byName : List (String × NumericFunction) := []

/-- Puts a value in its place in the order of names. -/
def insertValue (name : String) (value : Expr) : List (String × Expr) → List (String × Expr)
  | [] => [(name, value)]
  | (other, old) :: rest =>
    if name == other then (name, value) :: rest
    else if name < other then (name, value) :: (other, old) :: rest
    else (other, old) :: insertValue name value rest

/-- The values of all symbols but the given ones. -/
def dropValues (names : List String) (values : List (String × Expr)) : List (String × Expr) :=
  values.filter fun entry => !names.contains entry.1

namespace Expr

mutual

/-- Puts values in the place of free symbols, all at once. The variables of a derivative keep their
names inside it, the variable of an integral in its integrand. -/
def withValues (values : List (String × Expr)) : Expr → Expr
  | .num n => .num n
  | .sym name => (values.lookup name).getD (.sym name)
  | .sum terms => .sum (allWithValues values terms)
  | .prod factors => .prod (allWithValues values factors)
  | .pow base exponent => .pow (withValues values base) (withValues values exponent)
  | .call f functional subscript superscript =>
    .call f (allWithValues values functional) (allWithValues values subscript)
      (allWithValues values superscript)
  | .deriv body vars =>
    .deriv (withValues (dropValues (vars.map (·.1)) values) body) vars
  | .integral body var lower upper =>
    .integral (withValues (dropValues [var] values) body) var (optionWithValues values lower)
      (optionWithValues values upper)

/-- `withValues` in every expression of a list. -/
def allWithValues (values : List (String × Expr)) : List Expr → List Expr
  | [] => []
  | e :: es => withValues values e :: allWithValues values es

/-- `withValues` in an expression that may be missing. -/
def optionWithValues (values : List (String × Expr)) : Option Expr → Option Expr
  | none => none
  | some e => some (withValues values e)

end

end Expr

namespace Bindings

/-- Binds a symbol. A later value takes the place of an earlier one. -/
def withValue (bindings : Bindings) (name : String) (value : Expr) : Bindings :=
  { bindings with values := insertValue name value bindings.values }

/-- Binds every function of a name. -/
def withFunction (bindings : Bindings) (name : String) (f : NumericFunction) : Bindings :=
  { bindings with byName := (name, f) :: bindings.byName }

/-- Binds one function by its whole signature. -/
def withSignature (bindings : Bindings) (signature : Signature) (f : NumericFunction) : Bindings :=
  { bindings with bySignature := (signature, f) :: bindings.bySignature }

/-- The value of a symbol. -/
def value? (bindings : Bindings) (name : String) : Option Expr :=
  bindings.values.lookup name

/-- The implementation bound to a name. -/
def functionNamed? (bindings : Bindings) (name : String) : Option NumericFunction :=
  bindings.byName.lookup name

/-- The implementation of a function. A binding of the whole signature comes first. -/
def function? (bindings : Bindings) (signature : Signature) : Option NumericFunction :=
  (bindings.bySignature.lookup signature).or (bindings.functionNamed? signature.name)

/-- The bindings without the values of the given symbols. -/
def without (bindings : Bindings) (names : List String) : Bindings :=
  { bindings with values := dropValues names bindings.values }

/-- The expression with all bound symbols replaced by their values. -/
def replaceSymbols (bindings : Bindings) (e : Expr) : Expr :=
  e.withValues bindings.values

end Bindings

end Workings
