import Workings.Proofs.Run

/-!
# What solving is made of

A solution touches the sheet in a few ways only: it makes changes, writes remarks, reports a status,
records rules, asks for messages, opens blocks, works on the side, recovers from a value outside of its
domain, and looks at the part of the sheet that `Sheet.Alike` compares. `Work.Routine` is the work that
is put together from these operations, and `Work.solveWith_routine` says that solving is. A property that
every operation has, and that is kept when work is put together, is therefore a property of every
solution.
-/

namespace Workings

/-- Two sheets that look alike to a solution: the same tree and blocks under the same bindings, options
and wording. What they have written down, and how they came out, may differ. -/
structure Sheet.Alike (s t : Sheet) : Prop where
  origin : s.origin = t.origin
  tree : s.tree = t.tree
  blocks : s.blocks = t.blocks
  bindings : s.bindings = t.bindings
  options : s.options = t.options
  phrasing : s.phrasing = t.phrasing
  write : s.write = t.write

theorem Sheet.Alike.block {s t : Sheet} (h : s.Alike t) (id : Nat) : s.block id = t.block id := by
  unfold Sheet.block
  rw [h.blocks]

theorem Sheet.Alike.blockItem? {s t : Sheet} (h : s.Alike t) (id index : Nat) :
    s.blockItem? id index = t.blockItem? id index := by
  unfold Sheet.blockItem?
  rw [h.block]

namespace Work

/-- Work put together from the operations on a sheet. -/
inductive Routine : {α : Type} → Work α → Prop
  | pure {α : Type} (a : α) : Routine (Pure.pure a)
  | bind {α β : Type} {w : Work α} {f : α → Work β} :
      Routine w → (∀ a, Routine (f a)) → Routine (w >>= f)
  | undefined {α : Type} (reason : String) (e : Expr) :
      Routine (throw (.undefined reason e) : Work α)
  | exhausted {α : Type} : Routine (throw .exhausted : Work α)
  | look {α : Type} {f : Sheet → Work α} :
      (∀ s, Routine (f s)) → (∀ s t, s.Alike t → f s = f t) → Routine (get >>= f)
  | change (c : Change) : Routine (changeWith c)
  | remark (text : String) (pause : Bool) : Routine (modify (·.remark text pause))
  | report (status : Status) (reason : String) : Routine (modify (·.report status reason))
  | record (event : Event) : Routine (modify (·.record event))
  | absorb (side : Sheet) : Routine (modify (·.absorb side))
  | ask {α : Type} (question : Asking α) : Routine (ask question)
  | block {α : Type} (trees : List Expr) {work : Nat → Work α} :
      (∀ id, Routine (work id)) → Routine (withBlock trees work)
  | aside {α : Type} (tree : Expr) (bindings : Bindings) {work : Work α} :
      Routine work → Routine (onTheSide tree bindings work)
  | rescue {α : Type} {work : Work α} {handle : Fault → Work α} :
      Routine work → (∀ reason e, Routine (handle (.undefined reason e))) →
      (∀ part tree, handle (.absent part tree) = throw (.absent part tree)) →
      handle .exhausted = throw .exhausted → Routine (tryCatch work handle)

variable {α β : Type}

theorem Routine.ite {c : Prop} [Decidable c] {w v : Work α} (hw : Routine w) (hv : Routine v) :
    Routine (if c then w else v) := by
  split
  · exact hw
  · exact hv

/-- A remark that is written under a condition does not matter for what follows. -/
theorem Routine.iteBind {c : Prop} [Decidable c] {w : Work Unit} {f : Unit → Work α}
    (hw : Routine w) (hf : ∀ u, Routine (f u)) : Routine (if c then w >>= f else f ()) :=
  .ite (hw.bind hf) (hf ())

theorem routine_changeIfPresent (c : Change) : Routine (changeIfPresent c) := by
  refine .look (fun s => .ite (.change c) (.pure ())) ?_
  intro s t h
  rw [h.tree]

theorem routine_options : Routine options :=
  .look (fun _ => .pure _) fun _ _ h => by rw [h.options]

theorem routine_written (e : Expr) : Routine (written e) :=
  .look (fun _ => .pure _) fun _ _ h => by rw [h.write]

theorem routine_wording (key verbose concise : String) (payload : Payload) :
    Routine (wording key verbose concise payload) := by
  refine .look (fun s => .ask _) ?_
  intro s t h
  rw [h.phrasing, h.options]

/-- Asking for a message and writing it down. -/
theorem routine_remarkOn (key verbose concise : String) (payload : Payload) :
    Routine (do remark (← wording key verbose concise payload)) :=
  (routine_wording key verbose concise payload).bind fun text => .remark text false

end Work

open Work (Routine routine_options routine_written routine_wording routine_changeIfPresent
  routine_remarkOn)

/-! ### Arithmetic by hand -/

theorem calculatorMessage_routine (operation : Operation) (expression result : Expr)
    (operands : List Number) : Routine (calculatorMessage operation expression result operands) := by
  refine .look (fun s => .ite (.ask _) (.pure _)) ?_
  intro s t h
  rw [h.options, h.write, h.phrasing]

theorem remarkOnColumn_routine (column : Column) : Routine (remarkOnColumn column) := by
  unfold remarkOnColumn
  refine .ite ?_ (.pure ())
  extract_lets sum digit addition finish
  have hfinish : ∀ suffix, Routine (finish suffix) := fun suffix =>
    routine_options.bind fun options => .ite (.remark _ false) (.pure ())
  refine .ite ?_ (.ite ?_ ?_)
  · exact (routine_wording ..).bind hfinish
  · exact (routine_wording ..).bind hfinish
  · exact (Routine.pure "").bind hfinish

theorem remarkOnCarry_routine (left : Nat) (carry : Int) : Routine (remarkOnCarry left carry) := by
  unfold remarkOnCarry
  refine routine_options.bind fun options => .ite ?_ (.pure ())
  exact routine_remarkOn ..

theorem remarkOnColumns_routine (columns : List Column) :
    Routine (columns.forM remarkOnColumn) := by
  induction columns with
  | nil => exact .pure ()
  | cons column columns ih => exact (remarkOnColumn_routine column).bind fun _ => ih

theorem addComponents_routine (components : List Number) : Routine (addComponents components) := by
  unfold addComponents
  extract_lets columns
  refine routine_options.bind fun options => .iteBind (.remark _ false) fun _ => ?_
  refine (remarkOnColumns_routine _).bind fun _ => (remarkOnCarry_routine _ _).bind fun _ => ?_
  refine (routine_wording ..).bind fun text => (Routine.remark text false).bind fun _ => ?_
  exact (Routine.change _).bind fun _ => .pure _

theorem add_routine (a b : Number) : Routine (add a b) := by
  unfold add
  extract_lets expression quick operation components finish
  have hfinish : ∀ result, Routine (finish result) := fun result =>
    (Routine.remark "" true).bind fun _ => .pure result
  refine routine_options.bind fun options => ?_
  refine .ite ((Routine.change _).bind fun _ => .pure _) (.ite ?_ (.ite ?_ ?_))
  · refine (calculatorMessage_routine ..).bind fun message => ?_
    exact (Routine.change _).bind fun _ => .pure _
  · exact (Routine.change _).bind fun _ => .pure _
  · extract_lets rest
    have hrest : ∀ u, Routine (rest u) := by
      intro u
      refine (Routine.change _).bind fun _ => .ite ?_ ?_
      · exact (addComponents_routine _).bind hfinish
      · exact (Routine.change _).bind fun _ => (Routine.pure quick).bind hfinish
    refine .ite ?_ (hrest ())
    exact (routine_wording ..).bind fun text => (Routine.remark text false).bind hrest

theorem estimateProduct?_routine (a b : Number) : Routine (estimateProduct? a b) := by
  unfold estimateProduct?
  refine routine_options.bind fun options => ?_
  split
  · exact .pure none
  · refine .ite (.pure none) ?_
    refine (Routine.report _ _).bind fun _ => (Routine.remark _ false).bind fun _ => ?_
    refine (Routine.remark _ false).bind fun _ => (Routine.remark _ false).bind fun _ => ?_
    refine (routine_written _).bind fun text => ?_
    exact (Routine.change _).bind fun _ => .pure _

theorem roundAndAdjust?_routine {multiply : Number → Number → Work Expr}
    (hmultiply : ∀ a b, Routine (multiply a b)) (a b : Number) :
    Routine (roundAndAdjust? multiply a b) := by
  unfold roundAndAdjust?
  refine routine_options.bind fun options => ?_
  extract_lets limit
  split
  · exact .pure none
  · refine (Routine.change _).bind fun _ => ?_
    refine .ite ((Routine.change _).bind fun _ => .pure _) ?_
    extract_lets rounded adjustment finish
    have hfinish : ∀ adjusted, Routine (finish adjusted) := by
      intro adjusted
      unfold finish
      split
      · exact (Routine.change _).bind fun _ => .pure _
      · exact .pure _
    refine (Routine.change _).bind fun _ => ?_
    exact .ite ((hmultiply _ _).bind hfinish) ((hmultiply _ _).bind hfinish)

theorem approximateFactor_routine (name : FactorName) (record : Bool) (x : Number) :
    Routine (approximateFactor name record x) := by
  unfold approximateFactor
  refine routine_options.bind fun options => ?_
  refine .ite (.pure x) ?_
  split
  · exact .pure x
  · extract_lets rounded
    refine .ite ?_ (.pure _)
    refine (routine_wording ..).bind fun message => ?_
    exact (Routine.change _).bind fun _ => .pure _

theorem remarkOnShift_routine (name : FactorName) (x : Number) (exponent : Int) :
    Routine (remarkOnShift name x exponent) :=
  routine_remarkOn ..

theorem multiplyComponents_routine (a b : Int64) (ca cb : Number) :
    Routine (multiplyComponents a b ca cb) := by
  unfold multiplyComponents
  refine routine_options.bind fun options => ?_
  extract_lets exact as bs products factored done add table
  have hdone : ∀ u, Routine (done u) := fun u => .pure exact
  have hadd : ∀ u, Routine (add u) := fun u =>
    (addComponents_routine _).bind fun result => .iteBind (routine_changeIfPresent _) hdone
  have htable : ∀ u, Routine (table u) := by
    intro u
    refine (Routine.change _).bind fun _ => .ite ?_ ((Routine.change _).bind hdone)
    refine .ite ?_ (hadd ())
    exact (routine_wording ..).bind fun text => (Routine.remark text false).bind hadd
  refine (Routine.change _).bind fun _ => .ite ?_ (htable ())
  refine (routine_wording ..).bind fun text => (Routine.remark text false).bind fun _ => ?_
  exact (Routine.remark _ false).bind htable

theorem scaleBack_routine (exact : Number) (exponent : Int) :
    Routine (scaleBack exact exponent) := by
  unfold scaleBack
  exact .ite ((Routine.change _).bind fun _ => .pure _) (.pure _)

theorem multiplyAtLength_routine (a b : Number) : Routine (multiplyAtLength a b) := by
  unfold multiplyAtLength
  refine routine_options.bind fun options => ?_
  extract_lets finish work
  have hfinish : ∀ result, Routine (finish result) := fun result =>
    (Routine.remark "" true).bind fun _ => .pure result
  have hwork : ∀ u, Routine (work u) := by
    intro u
    refine (approximateFactor_routine _ _ _).bind fun a => ?_
    refine (approximateFactor_routine _ _ _).bind fun b => ?_
    dsimp only
    split
    · refine .iteBind (remarkOnShift_routine ..) fun _ => ?_
      refine .iteBind (remarkOnShift_routine ..) fun _ => .iteBind (.change _) fun _ => ?_
      refine (multiplyComponents_routine ..).bind fun exact => .ite ?_ ?_
      · exact (scaleBack_routine _ _).bind hfinish
      · exact (Routine.pure _).bind hfinish
    · exact (Routine.change _).bind fun _ => .pure _
  refine .ite ?_ (hwork ())
  exact (routine_wording ..).bind fun text => (Routine.remark text false).bind hwork

theorem multiplyWith_routine {shortcut? : Number → Number → Work (Option Number)}
    (hshortcut : ∀ a b, Routine (shortcut? a b)) (a b : Number) :
    Routine (multiplyWith shortcut? a b) := by
  unfold multiplyWith
  refine routine_options.bind fun options => ?_
  extract_lets expression quick limit compact
  refine .ite ((Routine.change _).bind fun _ => .pure _) ?_
  refine (estimateProduct?_routine a b).bind fun estimate => ?_
  split
  · exact .pure _
  · refine .ite ?_ (.ite ((Routine.change _).bind fun _ => .pure _) ?_)
    · refine (calculatorMessage_routine ..).bind fun message => ?_
      exact (Routine.change _).bind fun _ => .pure _
    · refine (hshortcut a b).bind fun result => ?_
      split
      · exact .pure _
      · exact multiplyAtLength_routine a b

theorem multiplyPlainly_routine (a b : Number) : Routine (multiplyPlainly a b) :=
  multiplyWith_routine (fun _ _ => .pure none) a b

theorem multiply_routine (quick : Bool) (a b : Number) : Routine (multiply quick a b) := by
  have hshort := multiplyWith_routine (roundAndAdjust?_routine multiplyPlainly_routine) a b
  exact routine_options.bind fun _ => .ite hshort (multiplyPlainly_routine a b)

/-! ### Rules of calculus -/

theorem Work.differentiate_routine (x : String) (e : Expr) : Routine (Work.differentiate x e) := by
  unfold Work.differentiate
  refine .ite ((Routine.record _).bind fun _ => .pure _) ?_
  split
  · exact (Routine.record _).bind fun _ => .pure _
  · exact (Routine.report _ _).bind fun _ => (Routine.record _).bind fun _ => .pure _

theorem Work.integrate_routine (x : String) (e : Expr) : Routine (Work.integrate x e) := by
  unfold Work.integrate
  split
  · exact (Routine.record _).bind fun _ => .pure _
  · exact (Routine.report _ _).bind fun _ => (Routine.record _).bind fun _ => .pure _

namespace Simplify

theorem differentiateTimes_routine (x : String) (times : Nat) (e : Expr) :
    Routine (differentiateTimes x times e) := by
  induction times generalizing e with
  | zero => exact .pure e
  | succ times ih => exact (Work.differentiate_routine x e).bind ih

theorem differentiateBy_routine (vars : List (String × Nat)) (e : Expr) :
    Routine (differentiateBy vars e) := by
  induction vars generalizing e with
  | nil => exact .pure e
  | cons var rest ih => exact (differentiateTimes_routine var.1 var.2 e).bind ih

/-! ### Nodes whose parts are simplified by routine work -/

theorem literal_routine (n : Number) : Routine (literal n) := by
  unfold literal
  refine routine_options.bind fun options => ?_
  exact .iteBind (.change _) fun _ => .pure _

theorem symbol_routine (name : String) : Routine (symbol name) := by
  unfold symbol
  refine .look (fun s => ?_) fun s t h => by rw [h.bindings]
  split
  · exact (routine_changeIfPresent _).bind fun _ => .pure _
  · exact .pure _

theorem become_routine (current result : Expr) : Routine (become current result) :=
  .ite (.change _) (.pure ())

section

variable {simplify : Simplifier} (hs : ∀ e, Routine (simplify e))

include hs

theorem blockFrom_routine (id index count : Nat) : Routine (blockFrom simplify id index count) := by
  induction count generalizing index with
  | zero => exact .pure []
  | succ count ih =>
    refine .look (fun s => ?_) fun s t h => by rw [h.blockItem?]
    split
    · exact (hs _).bind fun _ => (ih _).bind fun _ => .pure _
    · exact ih _

theorem block_routine (id : Nat) : Routine (block simplify id) :=
  .look (fun _ => blockFrom_routine hs id 0 _) fun s t h => by rw [h.block]

theorem siblings_routine (trees : List Expr) : Routine (siblings simplify trees) :=
  .block trees (block_routine hs)

theorem call_routine (f : Signature) (functional subscript superscript : List Expr) :
    Routine (call simplify f functional subscript superscript) := by
  unfold call
  extract_lets unsimplified
  refine Routine.bind ?_ ?_
  · refine .block _ fun first => .block _ fun second => .block _ fun third => ?_
    refine (block_routine hs first).bind fun _ => (block_routine hs second).bind fun _ => ?_
    exact (block_routine hs third).bind fun _ => .pure _
  · rintro ⟨functional, subscript, superscript⟩
    dsimp -zeta only
    extract_lets simplified finish
    have hfinish : ∀ result, Routine (finish result) := by
      intro result
      refine .look (fun s => ?_) fun s t h => by rw [h.tree]
      refine .ite ((Routine.change _).bind fun _ => .pure _) ?_
      exact .iteBind (.change _) fun _ => .pure _
    refine .look (fun s => ?_) fun s t h => by rw [h.bindings]
    split
    · exact (Routine.pure _).bind hfinish
    · exact (Routine.undefined _ _).bind hfinish
    · exact (Routine.pure _).bind hfinish

omit hs in
theorem addAll_routine (total : Number) (numbers : List Number) :
    Routine (addAll total numbers) := by
  induction numbers generalizing total with
  | nil => exact .pure total
  | cons n rest ih => exact (add_routine total n).bind ih

omit hs in
theorem addNumbers_routine (current : Expr) (numbers : List Number) :
    Routine (addNumbers current numbers) := by
  unfold addNumbers
  split
  · exact .pure _
  · exact .pure _
  · refine .block _ fun id => (addAll_routine _ _).bind fun total => ?_
    exact .look (fun _ => .pure _) fun s t h => by rw [h.blockItem?]

theorem sum_routine (terms : List Expr) : Routine (sum simplify terms) := by
  unfold sum
  refine (siblings_routine hs terms).bind fun simplified => ?_
  extract_lets terms numbers others combine
  have hcombine : ∀ u, Routine (combine u) := by
    intro u
    refine (addNumbers_routine _ _).bind ?_
    rintro ⟨total, current⟩
    refine .ite ((become_routine _ _).bind fun _ => .pure _) ?_
    exact .ite ((Routine.change _).bind fun _ => .pure _) (.pure _)
  exact .iteBind (.change _) hcombine

omit hs in
theorem multiplyAll_routine (result : Expr) (numbers : List Number) :
    Routine (multiplyAll result numbers) := by
  induction numbers generalizing result with
  | nil => exact .pure _
  | cons n rest ih =>
    cases result with
    | num total => exact (multiply_routine true total n).bind ih
    | _ => exact .pure _

omit hs in
theorem multiplyNumbers_routine (current : Expr) (numbers : List Number) (others : List Expr) :
    Routine (multiplyNumbers current numbers others) := by
  unfold multiplyNumbers
  refine Routine.bind ?_ ?_
  · refine .block _ fun id => (multiplyAll_routine _ _).bind fun result => ?_
    exact .look (fun _ => .pure _) fun s t h => by rw [h.blockItem?]
  · rintro ⟨result, leftover, inTree⟩
    exact .ite (.pure _) ((become_routine _ _).bind fun _ => .pure _)

theorem factors_routine (current : Expr) (kept : List Expr) :
    Routine (factors simplify current kept) := by
  unfold factors
  split
  · exact (Routine.change _).bind fun _ => hs _
  · extract_lets sorted numbers others result
    refine .ite ((become_routine _ _).bind fun _ => .pure _) ?_
    exact multiplyNumbers_routine current numbers others

theorem product_routine (parts : List Expr) : Routine (product simplify parts) := by
  unfold product
  refine .ite ((Routine.change _).bind fun _ => .pure _) ?_
  refine (siblings_routine hs parts).bind fun simplified => ?_
  extract_lets inTree
  refine .ite ((Routine.change _).bind fun _ => .pure _) ?_
  split
  · exact (Routine.change _).bind fun _ => .pure _
  · exact (Routine.change _).bind fun _ => .pure _
  · exact (become_routine _ _).bind fun _ => factors_routine hs _ _

theorem body_routine (bound : List String) (e : Expr) : Routine (body simplify bound e) := by
  unfold body
  refine .look (fun s => ?_) fun s t h => by rw [h.bindings]
  exact (Routine.aside _ _ (hs _)).bind fun _ => (Routine.absorb _).bind fun _ => .pure _

theorem derivative_routine (e : Expr) (vars : List (String × Nat)) :
    Routine (derivative simplify e vars) := by
  unfold derivative
  extract_lets inTree names
  refine (body_routine hs _ e).bind fun inner => ?_
  extract_lets unevaluated
  refine (differentiateBy_routine _ _).bind fun result => .ite ?_ ?_
  · refine (Routine.report _ _).bind fun _ => ?_
    exact (become_routine _ _).bind fun _ => .pure _
  · refine (Routine.record _).bind fun _ => (routine_wording ..).bind fun message => ?_
    exact (Routine.change _).bind fun _ => hs _

theorem integralBounds_routine (lower upper : Option Expr) :
    Routine (integralBounds simplify lower upper) :=
  (siblings_routine hs _).bind fun _ => .pure _

omit hs in
theorem unsolvedIntegral_routine (reason : String) (inTree current : Expr) :
    Routine (unsolvedIntegral reason inTree current) :=
  (Routine.report _ _).bind fun _ => (become_routine _ _).bind fun _ => .pure _

theorem indefiniteIntegral_routine (var : String) (inTree antiderivative : Expr) :
    Routine (indefiniteIntegral simplify var inTree antiderivative) := by
  unfold indefiniteIntegral
  refine (Routine.record _).bind fun _ => (routine_wording ..).bind fun message => ?_
  exact (Routine.change _).bind fun _ => hs _

theorem definiteIntegral_routine (var : String) (lower upper inTree antiderivative : Expr) :
    Routine (definiteIntegral simplify var lower upper inTree antiderivative) := by
  unfold definiteIntegral
  extract_lets difference
  refine (Routine.record _).bind fun _ => ?_
  refine (routine_written _).bind fun _ => (routine_written _).bind fun _ => ?_
  refine (routine_wording ..).bind fun message => ?_
  exact (Routine.change _).bind fun _ => hs _

theorem integral_routine (e : Expr) (var : String) (lower upper : Option Expr) :
    Routine (integral simplify e var lower upper) := by
  unfold integral
  refine (body_routine hs _ e).bind fun inner => ?_
  refine (integralBounds_routine hs lower upper).bind ?_
  rintro ⟨lower, upper⟩
  dsimp only
  refine (Work.integrate_routine _ _).bind fun antiderivative => ?_
  split
  · exact .ite (indefiniteIntegral_routine hs _ _ _) (unsolvedIntegral_routine _ _ _)
  · exact .ite (definiteIntegral_routine hs _ _ _ _ _) (unsolvedIntegral_routine _ _ _)

omit hs in
theorem overflow_routine (words : OverflowWords) (current : Expr) :
    Routine (overflow words current) := by
  have hvalue : ∀ key sign value, Routine (overflowAs words key sign current value) := by
    intro key sign value
    exact (routine_wording ..).bind fun _ => (Routine.change _).bind fun _ => .pure _
  unfold overflow
  refine routine_options.bind fun options => ?_
  split
  · exact hvalue _ _ _
  · exact hvalue _ _ _
  · refine (routine_written _).bind fun text => (routine_wording ..).bind fun message => ?_
    exact (Routine.remark message false).bind fun _ => .pure _

omit hs in
theorem powerOfNumbers_routine (current : Expr) (base exponent : Number)
    {value : Expr → Work Expr} (hvalue : ∀ e, Routine (value e)) :
    Routine (powerOfNumbers current base exponent value) := by
  unfold powerOfNumbers
  split
  · exact .ite ((routine_written _).bind fun _ => .undefined _ _) (hvalue _)
  · exact overflow_routine _ _

omit hs in
theorem zeroPowerZero_routine (current : Expr) : Routine (zeroPowerZero current) := by
  unfold zeroPowerZero
  refine routine_options.bind fun options => ?_
  split
  · exact (routine_wording ..).bind fun _ => (Routine.change _).bind fun _ => .pure _
  · exact (routine_wording ..).bind fun _ => (Routine.change _).bind fun _ => .pure _
  · exact (routine_wording ..).bind fun _ => .undefined _ _

omit hs in
theorem zeroPowerSymbolic_routine (current symbolic : Expr) :
    Routine (zeroPowerSymbolic current symbolic) := by
  refine (routine_written _).bind fun text => (Routine.report _ _).bind fun _ => ?_
  exact (routine_wording ..).bind fun _ => (Routine.change _).bind fun _ => .pure _

/-- Work on the side under the bindings of the sheet. -/
theorem preview_routine (e : Expr) {f : Expr × Sheet → Work Expr} (hf : ∀ p, Routine (f p)) :
    Routine (do
      let s ← get
      let p ← Work.onTheSide e s.bindings (simplify e)
      f p) := by
  refine .look (fun s => (Routine.aside _ _ (hs e)).bind hf) ?_
  intro s t h
  rw [h.bindings]

theorem zeroBase_routine (base exponent : Expr) : Routine (zeroBase simplify base exponent) := by
  unfold zeroBase
  extract_lets current
  refine preview_routine hs exponent ?_
  rintro ⟨preview, side⟩
  dsimp only
  split
  · refine .ite (zeroPowerZero_routine _) (.ite ?_ (.ite ?_ (zeroPowerSymbolic_routine _ _)))
    · exact (routine_wording ..).bind fun _ => (Routine.change _).bind fun _ => .pure _
    · exact (routine_wording ..).bind fun _ => .undefined _ _
  · exact zeroPowerSymbolic_routine _ _

theorem oneBase_routine (base exponent : Expr) : Routine (oneBase simplify base exponent) := by
  refine (hs exponent).bind fun exponent => ?_
  refine (routine_written _).bind fun _ => (routine_written _).bind fun _ => ?_
  exact (routine_wording ..).bind fun _ => (Routine.change _).bind fun _ => .pure _

omit hs in
theorem minusOnePower_routine (current : Expr) (exponent : Number) :
    Routine (minusOnePower current exponent) :=
  (routine_wording ..).bind fun _ => (Routine.change _).bind fun _ => .pure _

theorem root_routine (base exponent : Expr) : Routine (root simplify base exponent) := by
  unfold root
  extract_lets current finish
  have hfinish : ∀ result, Routine (finish result) := fun result =>
    (Routine.change _).bind fun _ => .pure result
  refine preview_routine hs exponent ?_
  rintro ⟨simplified, side⟩
  dsimp only
  split
  · exact powerOfNumbers_routine _ _ _ hfinish
  · exact hfinish _

omit hs in
theorem estimatePower_routine (current : Expr) (base exponent : Number) (digits : Nat) :
    Routine (estimatePower current base exponent digits) := by
  refine (Routine.report _ _).bind fun _ => (Routine.remark _ false).bind fun _ => ?_
  refine (Routine.remark _ false).bind fun _ => (Routine.remark _ false).bind fun _ => ?_
  exact (routine_written _).bind fun _ => (Routine.change _).bind fun _ => .pure _

theorem numericPower_routine (current : Expr) (base exponent : Number) :
    Routine (numericPower simplify current base exponent) := by
  unfold numericPower
  refine routine_options.bind fun options => .ite (overflow_routine _ _) ?_
  split
  · exact estimatePower_routine _ _ _ _
  · refine .ite (powerOfNumbers_routine _ _ _ fun result => ?_) ?_
    · exact (calculatorMessage_routine ..).bind fun _ => (Routine.change _).bind fun _ => .pure _
    · split
      · exact (Routine.change _).bind fun _ => hs _
      · refine powerOfNumbers_routine _ _ _ fun result => ?_
        exact (routine_changeIfPresent _).bind fun _ => .pure _

theorem power_routine (base exponent : Expr) : Routine (power simplify base exponent) := by
  unfold power
  refine Routine.bind ?_ ?_
  · refine .block _ fun id => (hs base).bind fun base => ?_
    exact .look (fun _ => .pure _) fun s t h => by rw [h.blockItem?]
  · rintro ⟨base, exponent⟩
    refine .ite (zeroBase_routine hs _ _) (.ite (oneBase_routine hs _ _) ?_)
    refine .ite (root_routine hs _ _) ((hs _).bind fun exponent => ?_)
    dsimp only
    split
    · exact .ite (minusOnePower_routine _ _) (numericPower_routine hs _ _ _)
    · exact (become_routine _ _).bind fun _ => .pure _

theorem node_routine (e : Expr) : Routine (node simplify e) := by
  cases e with
  | num n => exact literal_routine n
  | sym name => exact symbol_routine name
  | sum terms => exact sum_routine hs terms
  | prod parts => exact product_routine hs parts
  | pow base exponent => exact power_routine hs base exponent
  | call f functional subscript superscript => exact call_routine hs f _ _ _
  | deriv e vars => exact derivative_routine hs e vars
  | integral e var lower upper => exact integral_routine hs e var lower upper

end

end Simplify

/-- Simplification is put together from the operations on a sheet, at every depth. -/
theorem Expr.simplifyAt_routine (depth : Nat) (e : Expr) : Routine (Expr.simplifyAt depth e) := by
  induction depth generalizing e with
  | zero => exact .exhausted
  | succ depth ih => exact Simplify.node_routine ih e

/-! ### Solutions -/

namespace Work

theorem joinValues_routine (texts : List String) : Routine (joinValues texts) := by
  unfold joinValues
  refine .look (fun s => ?_) fun s t h => by rw [h.phrasing]
  refine (Routine.ask _).bind fun pair => (Routine.ask _).bind fun many => ?_
  split <;> exact .pure _

theorem substituteValues_routine : Routine substituteValues := by
  unfold substituteValues
  refine .look (fun s => ?_) fun s t h => by rw [h.bindings, h.origin, h.write]
  extract_lets substituted done
  refine .ite ?_ (.pure _)
  refine (joinValues_routine _).bind fun listed => (routine_wording ..).bind fun text => ?_
  exact (Routine.remark text false).bind fun _ => (Routine.change _).bind fun _ => .pure _

theorem undefinedMessage_routine (expression : Expr) : Routine (undefinedMessage expression) := by
  unfold undefinedMessage
  refine (routine_written _).bind fun text => ?_
  split <;> exact routine_wording ..

theorem solveWith_routine {simplify : Simplifier} (hs : ∀ e, Routine (simplify e)) :
    Routine (solveWith simplify) := by
  unfold solveWith
  refine substituteValues_routine.bind fun substituted => ?_
  refine Routine.bind ?_ fun result => .iteBind (.report _ _) fun _ => .pure _
  refine .rescue ?_ ?_ (fun _ _ => rfl) rfl
  · refine (hs _).bind fun result => ?_
    split <;> exact .pure _
  · intro reason e
    refine (Routine.report _ _).bind fun _ => (undefinedMessage_routine e).bind fun text => ?_
    refine (Routine.remark text false).bind fun _ => ?_
    exact .look (fun _ => .pure _) fun s t h => by rw [h.tree]

/-! ### What the operations keep -/

/-- A relation between sheets before and after work, which every operation keeps. -/
structure Kept (R : Sheet → Sheet → Prop) : Prop where
  refl : ∀ s, R s s
  trans : ∀ {s t u}, R s t → R t u → R s u
  change : ∀ c s, R s (exec (changeWith c) s).2
  remark : ∀ text pause s, R s (s.remark text pause)
  report : ∀ status reason s, R s (s.report status reason)
  record : ∀ event s, R s (s.record event)
  absorb : ∀ side s, R s (s.absorb side)
  missing : ∀ missing s, R s { s with missing := missing }
  close : ∀ trees s t, R { s with blocks := s.blocks ++ [trees] } t →
    R s { t with blocks := t.blocks.take s.blocks.length }

/-- What the operations on a sheet keep is kept by all work that is put together from them. -/
theorem Routine.keeps {R : Sheet → Sheet → Prop} (hR : Kept R) {w : Work α} (h : Routine w)
    (s : Sheet) : R s (exec w s).2 := by
  induction h generalizing s with
  | pure a => exact hR.refl s
  | @bind α β w f hw hf ihw ihf =>
    have hfirst := ihw s
    rcases h : exec w s with ⟨fault | a, t⟩ <;> rw [h] at hfirst
    · rw [exec_bind_error h]
      exact hfirst
    · rw [exec_bind_ok h]
      exact hR.trans hfirst (ihf a t)
  | undefined reason e => exact hR.refl s
  | exhausted => exact hR.refl s
  | look _ _ ih => exact ih s s
  | change c => exact hR.change c s
  | remark text pause => exact hR.remark text pause s
  | report status reason => exact hR.report status reason s
  | record event => exact hR.record event s
  | absorb side => exact hR.absorb side s
  | ask question => exact hR.missing _ s
  | block trees _ ih => exact hR.close trees s _ (ih s.blocks.length _)
  | aside tree bindings _ _ => exact hR.missing _ s
  | @rescue α w handle hw hh habsent hexhausted ihw ihh =>
    have hfirst := ihw s
    rcases h : exec w s with ⟨fault | a, t⟩ <;> rw [h] at hfirst
    · rw [exec_tryCatch_error h]
      cases fault with
      | undefined reason e => exact hR.trans hfirst (ihh reason e t)
      | absent part tree => exact habsent part tree ▸ hfirst
      | exhausted => exact hexhausted ▸ hfirst
    · rw [exec_tryCatch_ok h]
      exact hfirst

end Work

/-- Solving is put together from the operations on a sheet. -/
theorem routine_solve : Routine (Work.solveWith Expr.simplify) :=
  Work.solveWith_routine (Expr.simplifyAt_routine Expr.maxDepth)

end Workings
