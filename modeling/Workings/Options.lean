import Workings.Message.Catalog

/-!
# Options

The policies of a solution: what is worked out at length and what in one step, what is rounded, what
happens where a value cannot be represented, and how the explanation is worded. The defaults describe
a verbose, fully worked explanation; `Options.compact` describes a terse one.

Choices out of a short list have names in lower case, by which they are written and read.
-/

namespace Workings

/-- What `0 ^ 0` is. -/
inductive ZeroPowerZero
  | undefined
  | one
  | zero
  deriving Repr, DecidableEq, Inhabited

/-- What becomes of a power that cannot be represented. -/
inductive OverflowPolicy
  | symbolic
  | infinity
  | zero
  deriving Repr, DecidableEq, Inhabited

/-- The long or the short form of messages. -/
inductive WordingStyle
  | verbose
  | concise
  deriving Repr, DecidableEq, Inhabited

/-- How much narrative a solution carries. -/
inductive Verbosity
  | minimal
  | normal
  | detailed
  deriving Repr, DecidableEq, Inhabited

/-- An operation that may be done in one step by calculator. -/
inductive Operation
  | addition
  | subtraction
  | multiplication
  | power
  deriving Repr, DecidableEq, Inhabited

/-- How far a solution got, from good to bad. -/
inductive Status
  | exact
  | partly
  | unsolved
  deriving Repr, DecidableEq, Inhabited

/-- What an event is about. -/
inductive EventCategory
  | derivative
  | integral
  deriving Repr, DecidableEq, Inhabited

/-- A choice out of a list, each with a name. -/
class Named (α : Type) where
  all : List α
  name : α → String

/-- The choice of the given name. -/
def Named.ofName? {α : Type} [Named α] (text : String) : Option α :=
  (Named.all (α := α)).find? fun a => Named.name a == text

instance : Named ZeroPowerZero where
  all := [.undefined, .one, .zero]
  name
    | .undefined => "undefined"
    | .one => "one"
    | .zero => "zero"

instance : Named OverflowPolicy where
  all := [.symbolic, .infinity, .zero]
  name
    | .symbolic => "symbolic"
    | .infinity => "infinity"
    | .zero => "zero"

instance : Named WordingStyle where
  all := [.verbose, .concise]
  name
    | .verbose => "verbose"
    | .concise => "concise"

instance : Named Verbosity where
  all := [.minimal, .normal, .detailed]
  name
    | .minimal => "minimal"
    | .normal => "normal"
    | .detailed => "detailed"

instance : Named Operation where
  all := [.addition, .subtraction, .multiplication, .power]
  name
    | .addition => "addition"
    | .subtraction => "subtraction"
    | .multiplication => "multiplication"
    | .power => "power"

instance : Named Status where
  all := [.exact, .partly, .unsolved]
  name
    | .exact => "exact"
    | .partly => "partial"
    | .unsolved => "unsolved"

instance : Named EventCategory where
  all := [.derivative, .integral]
  name
    | .derivative => "derivative"
    | .integral => "integral"

instance : Named MissingKeyPolicy where
  all := [.fallback, .marker, .error]
  name
    | .fallback => "fallback"
    | .marker => "marker"
    | .error => "error"

/-- How severe a status is. -/
def Status.severity : Status → Nat
  | .exact => 0
  | .partly => 1
  | .unsolved => 2

/-- The heading of a step unless another one is given. -/
def defaultHeading : String := "## {number}"

/-- Templates that take the place of the default templates of messages. -/
structure Wording where
  templates : List (String × String) := []
  conciseTemplates : List (String × String) := []
  headingTemplate : String := defaultHeading
  deriving Repr, DecidableEq, Inhabited

/-- The template for a key. Where the concise style has none, the verbose one counts. -/
def Wording.template? (wording : Wording) (key : String) : WordingStyle → Option String
  | .verbose => wording.templates.lookup key
  | .concise => (wording.conciseTemplates.lookup key).or (wording.templates.lookup key)

/-- From how many digits on an operation is done in one step by calculator, and how that step is
written. -/
structure Calculator where
  enabled : Bool := true
  additionThreshold : Nat := 14
  subtractionThreshold : Nat := 14
  multiplicationThreshold : Nat := 8
  powerBaseThreshold : Nat := 5
  powerExponentThreshold : Nat := 3
  resultThreshold : Nat := 28
  template : String := "$$ {expression} = {result} $$"
  conciseTemplate : String := "$$ {expression} = {result} $$"
  operationTemplates : List (String × String) := []
  conciseOperationTemplates : List (String × String) := []
  deriving Repr, DecidableEq, Inhabited

namespace Calculator

/-- The calculator switched off. -/
def disabled : Calculator := { enabled := false }

/-- The greatest number of digits of an operand worked on by hand. -/
def operandThreshold (calculator : Calculator) : Operation → Nat
  | .addition => calculator.additionThreshold
  | .subtraction => calculator.subtractionThreshold
  | .multiplication => calculator.multiplicationThreshold
  | .power => calculator.resultThreshold

/-- The template of the single step for an operation. -/
def templateFor (calculator : Calculator) (operation : Operation) : WordingStyle → String
  | .verbose =>
    (calculator.operationTemplates.lookup (Named.name operation)).getD calculator.template
  | .concise =>
    (calculator.conciseOperationTemplates.lookup (Named.name operation)).getD
      calculator.conciseTemplate

end Calculator

/-- The policies of a solution. -/
structure Options where
  /-- A product with coefficients up to this magnitude is computed directly. -/
  implicitMultiplicationLimit : Int64 := 12
  /-- A sum with coefficients up to this magnitude is computed directly. -/
  implicitAdditionLimit : Int64 := 100
  /-- Long addition goes column by column. -/
  slowStepAddition : Bool := true
  /-- Small integer powers become products of repeated factors. -/
  expandPowers : Bool := true
  /-- The greatest exponent of a power that becomes a product; by default `maxPrecision`. -/
  expandPowerLimit : Option Nat := none
  /-- The number of significant digits kept when an operand is rounded. -/
  maxPrecision : Nat := 5
  /-- The greatest magnitude of an exponent that is worked on. -/
  maxExponent : Int64 := 100
  /-- Numbers below this magnitude are taken for zero. -/
  minValue : Float := 1e-6
  /-- Numbers above this magnitude are taken for infinite if `clampLiterals` holds. -/
  maxValue : Float := 1000000.0
  clampLiterals : Bool := false
  /-- A product of integers one of which is small is computed directly. -/
  compactMultiplication : Bool := true
  /-- Operands may be rounded. -/
  allowApproximation : Bool := true
  /-- A factor close to a power of ten is split off from it. -/
  roundAndAdjust : Bool := true
  style : WordingStyle := .verbose
  wording : Option Wording := none
  showComplexity : Bool := true
  showDecimalShift : Bool := true
  showMultiplicationTable : Bool := true
  showAlignment : Bool := true
  showPlaceValueSteps : Bool := true
  showValueList : Bool := true
  /-- The text of an event starts with its rule. -/
  showRuleName : Bool := false
  showAssumptions : Bool := false
  verbosity : Verbosity := .normal
  zeroPowerZero : ZeroPowerZero := .undefined
  overflow : OverflowPolicy := .symbolic
  /-- Results with more digits than this are estimated by their order of magnitude. -/
  magnitudeThreshold : Option Nat := some 28
  calculator : Calculator := {}
  profile : Option Profile := none
  deriving Inhabited

namespace Options

/-- Terse explanations in the given style and with the given heading of steps. -/
def compactWith (style : WordingStyle) (heading : String) (profile : Option Profile) : Options where
  style := style
  wording := some { headingTemplate := heading }
  profile := profile
  showComplexity := false
  showDecimalShift := false
  showMultiplicationTable := false
  showAlignment := false
  showPlaceValueSteps := false
  showValueList := false
  verbosity := .minimal

/-- Terse explanations. -/
def compact : Options :=
  compactWith .concise defaultHeading none

/-- The greatest exponent of a power that becomes a product, a 32-bit count. -/
def expansionLimit (options : Options) : Nat :=
  options.expandPowerLimit.getD (min options.maxPrecision (Nat.pow 2 32 - 1))

/-- The template of the heading of a step. -/
def headingTemplate (options : Options) : String :=
  (options.wording.map Wording.headingTemplate).getD defaultHeading

/-- The template of a message: the long or short default, or the text put in its place. -/
def template (options : Options) (key verbose concise : String) : String :=
  let default := match options.style with
    | .verbose => verbose
    | .concise => concise
  (options.wording.bind (·.template? key options.style)).getD default

end Options

end Workings
