import Workings.Proofs.Run
import Workings.Proofs.Vocabulary

/-!
# Sheets that are alike

Two sheets are alike if they have the same mathematics on them: the same tree and blocks, the same
outcome, and the same steps that change the tree. A `Likeness` says in which vocabulary the expressions
that are worked on stay, and whether their words are the same as well. Sheets that are alike stay alike under every operation
(`Sheet.Like.accept`, `Sheet.Like.remark` and so on).

What may differ besides words is the beginning of the log, up to which the sheets were worked on
separately, and the presentation of the solution (`Presentation`).
-/

namespace Workings

/-! ### Presentation -/

/-- How a solution is put into words: the source of messages, the form of expressions, the wording, what
is shown, and the templates of the calculator. -/
structure Presentation where
  phrasing : Phrasing
  write : Expr → String
  style : WordingStyle
  wording : Option Wording
  showComplexity : Bool
  showDecimalShift : Bool
  showMultiplicationTable : Bool
  showAlignment : Bool
  showPlaceValueSteps : Bool
  showValueList : Bool
  showRuleName : Bool
  showAssumptions : Bool
  verbosity : Verbosity
  profile : Option Profile
  template : String
  conciseTemplate : String
  operationTemplates : List (String × String)
  conciseOperationTemplates : List (String × String)

/-- The same policies in another presentation. -/
def Options.presentedBy (options : Options) (p : Presentation) : Options :=
  { options with
    style := p.style
    wording := p.wording
    showComplexity := p.showComplexity
    showDecimalShift := p.showDecimalShift
    showMultiplicationTable := p.showMultiplicationTable
    showAlignment := p.showAlignment
    showPlaceValueSteps := p.showPlaceValueSteps
    showValueList := p.showValueList
    showRuleName := p.showRuleName
    showAssumptions := p.showAssumptions
    verbosity := p.verbosity
    profile := p.profile
    calculator := { options.calculator with
      template := p.template
      conciseTemplate := p.conciseTemplate
      operationTemplates := p.operationTemplates
      conciseOperationTemplates := p.conciseOperationTemplates } }

namespace Options

variable (options : Options) (p : Presentation)

@[simp]
theorem presentedBy_magnitudeThreshold :
    (options.presentedBy p).magnitudeThreshold = options.magnitudeThreshold := rfl

@[simp]
theorem presentedBy_implicitMultiplicationLimit :
    (options.presentedBy p).implicitMultiplicationLimit = options.implicitMultiplicationLimit := rfl

@[simp]
theorem presentedBy_overflow : (options.presentedBy p).overflow = options.overflow := rfl

@[simp]
theorem presentedBy_zeroPowerZero : (options.presentedBy p).zeroPowerZero = options.zeroPowerZero :=
  rfl

@[simp]
theorem expansion?_presentedBy (exponent : Number) :
    Simplify.expansion? (options.presentedBy p) exponent = Simplify.expansion? options exponent := rfl

end Options

/-- The same sheet in another presentation. -/
def Sheet.presentedBy (s : Sheet) (p : Presentation) : Sheet :=
  { s with options := s.options.presentedBy p, phrasing := p.phrasing, write := p.write }

/-- The presentation of a sheet. -/
def Sheet.presentation (s : Sheet) : Presentation where
  phrasing := s.phrasing
  write := s.write
  style := s.options.style
  wording := s.options.wording
  showComplexity := s.options.showComplexity
  showDecimalShift := s.options.showDecimalShift
  showMultiplicationTable := s.options.showMultiplicationTable
  showAlignment := s.options.showAlignment
  showPlaceValueSteps := s.options.showPlaceValueSteps
  showValueList := s.options.showValueList
  showRuleName := s.options.showRuleName
  showAssumptions := s.options.showAssumptions
  verbosity := s.options.verbosity
  profile := s.options.profile
  template := s.options.calculator.template
  conciseTemplate := s.options.calculator.conciseTemplate
  operationTemplates := s.options.calculator.operationTemplates
  conciseOperationTemplates := s.options.calculator.conciseOperationTemplates

/-! ### Steady phrasings -/

/-- The answer to a question does not depend on the keys that are missing so far. -/
def Asking.Steady {α : Type} (question : Asking α) : Prop :=
  ∀ missing missing', (question.run missing).1 = (question.run missing').1

/-- The messages of a phrasing do not depend on the keys that are missing so far. -/
def Phrasing.Steady (phrasing : Phrasing) : Prop :=
  ∀ key default payload, Asking.Steady (phrasing.message key default payload)

namespace Asking

variable {α β : Type}

theorem steady_pure (a : α) : Steady (pure a : Asking α) :=
  fun _ _ => rfl

theorem Steady.bind {question : Asking α} {f : α → Asking β} (h : Steady question)
    (hf : ∀ a, Steady (f a)) : Steady (question >>= f) := by
  intro missing missing'
  have hrun : ∀ missing, ((question >>= f).run missing).1 =
      ((f (question.run missing).1).run (question.run missing).2).1 := fun _ => rfl
  rw [hrun, hrun, h missing missing']
  exact hf _ _ _

end Asking

namespace Catalog

open Asking (Steady steady_pure)

variable (catalog : Catalog)

theorem steady_template (key : String) (default : Option String) :
    Steady (catalog.template key default) := by
  unfold template
  split
  · exact steady_pure _
  · split
    · exact steady_pure _
    · exact steady_pure _
    · exact fun _ _ => rfl

theorem steady_expandChars (skip : Nat) (chars : List Char) :
    Steady (catalog.expandChars skip chars) := by
  fun_induction expandChars catalog skip chars with
  | case1 => exact steady_pure _
  | case2 _ _ _ ih => exact ih
  | case3 rest key _ ih =>
    exact (catalog.steady_template _ _).bind fun _ => ih.bind fun _ => steady_pure _
  | case4 _ _ ih => exact ih.bind fun _ => steady_pure _
  | case5 _ _ _ ih => exact ih.bind fun _ => steady_pure _

theorem steady_expand (rounds : Nat) (text : String) : Steady (catalog.expand rounds text) := by
  induction rounds generalizing text with
  | zero => exact steady_pure _
  | succ rounds ih =>
    refine (catalog.steady_expandChars 0 _).bind fun chars => ?_
    dsimp only
    split
    · exact steady_pure _
    · exact ih _

/-- The messages of a catalog do not depend on the keys that are missing so far. -/
theorem steady_phrasing : catalog.phrasing.Steady := fun key default _ =>
  (catalog.steady_template key default).bind fun _ =>
    (catalog.steady_expand maxRounds _).bind fun _ => steady_pure _

end Catalog

/-! ### Steps that change the tree -/

/-- The step without its explanation. -/
def Step.unexplained (step : Step) : Step :=
  { step with explanation := none }

/-- The steps that change the tree, without their explanations. -/
def moves (log : Array Entry) : List Step :=
  ((log.toList.filterMap Entry.step?).filter Step.changes).map Step.unexplained

theorem moves_append (log log' : Array Entry) : moves (log ++ log') = moves log ++ moves log' := by
  simp [moves]

/-- The text of the last entry. -/
def lastText? (log : Array Entry) : Option String :=
  log.back?.bind Entry.text?

theorem lastText?_append {before : Array Entry} (h : lastText? before = none) (log : Array Entry) :
    lastText? (before ++ log) = lastText? log := by
  unfold lastText?
  rw [Array.back?_append]
  cases log.back? with
  | none => exact h
  | some entry => rfl

/-! ### Sheets that are alike -/

/-- How alike two sheets are: in which vocabulary their expressions stay, and whether their words are the
same. -/
structure Likeness extends Vocabulary where
  worded : Prop

namespace Likeness

variable (k : Likeness)

/-- The same expression on both sheets, within the vocabulary. -/
def Same (a b : Expr) : Prop :=
  a = b ∧ k.Covers a

/-- The same expressions on both sheets, within the vocabulary. -/
def SameList (as bs : List Expr) : Prop :=
  as = bs ∧ ∀ a ∈ as, k.Covers a

/-- The same expression on both sheets, within the vocabulary, or none. -/
def SameOption (a b : Option Expr) : Prop :=
  a = b ∧ ∀ e, a = some e → k.Covers e

/-- Texts, which are the same if words are. -/
def Says (a b : String) : Prop :=
  k.worded → a = b

/-- What a message is made of, which is the same if words are. -/
def SameMessage (verbose verbose' concise concise' : String) (payload payload' : Payload) : Prop :=
  k.worded → verbose = verbose' ∧ concise = concise' ∧ payload = payload'

/-- Options that differ in presentation only, and not at all if words are the same. -/
def SameOptions (o o' : Options) : Prop :=
  (∃ p, o' = o.presentedBy p) ∧ (k.worded → o = o')

/-- Bindings that agree on functions and on the values of the symbols of the vocabulary. -/
structure SameBindings (b b' : Bindings) : Prop where
  bySignature : b.bySignature = b'.bySignature
  byName : b.byName = b'.byName
  value : ∀ name, k.symbol name → b.value? name = b'.value? name
  covers : ∀ name, k.symbol name → ∀ value, b.value? name = some value → k.Covers value
  whole : k.calculus → b.values = b'.values

/-- Logs that continue `before` and `before'` by the same changes of the tree, and by the same entries if
words are the same. -/
def SameLog (before before' log log' : Array Entry) : Prop :=
  ∃ entries entries', log = before ++ entries ∧ log' = before' ++ entries' ∧
    moves entries = moves entries' ∧
    (k.worded → entries = entries' ∧ lastText? before = none ∧ lastText? before' = none)

variable {k}

theorem Same.refl {e : Expr} (h : k.Covers e) : k.Same e e :=
  ⟨rfl, h⟩

theorem SameList.refl {es : List Expr} (h : ∀ e ∈ es, k.Covers e) : k.SameList es es :=
  ⟨rfl, h⟩

theorem Says.refl (text : String) : k.Says text text :=
  fun _ => rfl

theorem SameMessage.refl {verbose concise : String} {payload : Payload} :
    k.SameMessage verbose verbose concise concise payload payload :=
  fun _ => ⟨rfl, rfl, rfl⟩

/-- Whether something is shown is the same if words are. -/
theorem shown_iff {o o' : Options} (h : k.worded → o = o') (shown : Options → Bool)
    (hk : k.worded) : shown o = true ↔ shown o' = true := by
  rw [h hk]

theorem SameBindings.function? {b b' : Bindings} (h : k.SameBindings b b') (f : Signature) :
    b.function? f = b'.function? f := by
  unfold Bindings.function? Bindings.functionNamed?
  rw [h.bySignature, h.byName]

/-- Where calculus may occur the bindings are the same. -/
theorem SameBindings.eq {b b' : Bindings} (h : k.SameBindings b b') (hk : k.calculus) : b = b' := by
  rcases b with ⟨values, bySignature, byName⟩
  rcases b' with ⟨values', bySignature', byName'⟩
  obtain rfl : values = values' := h.whole hk
  obtain rfl : bySignature = bySignature' := h.bySignature
  obtain rfl : byName = byName' := h.byName
  rfl

theorem SameBindings.refl (hk : k.calculus) (b : Bindings) : k.SameBindings b b :=
  ⟨rfl, rfl, fun _ _ => rfl, fun _ _ _ _ => Vocabulary.covers_of_calculus hk _, fun _ => rfl⟩

theorem SameLog.refl {before before' : Array Entry}
    (h : k.worded → lastText? before = none ∧ lastText? before' = none) :
    k.SameLog before before' before before' :=
  ⟨#[], #[], by simp, by simp, rfl, fun hk => ⟨rfl, h hk⟩⟩

theorem SameLog.append {before before' log log' : Array Entry} (h : k.SameLog before before' log log')
    {entries entries' : Array Entry} (hmoves : moves entries = moves entries')
    (hwords : k.worded → entries = entries') :
    k.SameLog before before' (log ++ entries) (log' ++ entries') := by
  obtain ⟨written, written', rfl, rfl, hwritten, hk⟩ := h
  refine ⟨written ++ entries, written' ++ entries', ?_, ?_, ?_, fun hworded => ?_⟩
  · rw [Array.append_assoc]
  · rw [Array.append_assoc]
  · rw [moves_append, moves_append, hwritten, hmoves]
  · obtain ⟨heq, hbefore⟩ := hk hworded
    exact ⟨by rw [heq, hwords hworded], hbefore⟩

theorem SameLog.lastText? {before before' log log' : Array Entry}
    (h : k.SameLog before before' log log') (hk : k.worded) :
    Workings.lastText? log = Workings.lastText? log' := by
  obtain ⟨entries, entries', rfl, rfl, -, hwords⟩ := h
  obtain ⟨rfl, hbefore, hbefore'⟩ := hwords hk
  rw [lastText?_append hbefore, lastText?_append hbefore']

end Likeness

namespace Sheet

/-- Sheets with the same mathematics on them. Only the rules of calculus are recorded. -/
structure Similar (k : Likeness) (s t : Sheet) : Prop where
  tree : s.tree = t.tree
  blocks : s.blocks = t.blocks
  strict : s.strict = t.strict
  skipped : s.skipped = t.skipped
  approximate : s.approximate = t.approximate
  status : s.status = t.status
  reason : s.reason = t.reason
  events : s.events = t.events
  tags : s.tags = t.tags
  bindings : k.SameBindings s.bindings t.bindings
  options : k.SameOptions s.options t.options
  words : k.worded → s.phrasing = t.phrasing ∧ s.write = t.write ∧ t.phrasing.Steady
  coversBlocks : ∀ trees ∈ s.blocks, ∀ e ∈ trees, k.Covers e
  unrecorded : ¬k.calculus → s.events = #[]

/-- Sheets with the same mathematics on them, which continue `before` and `before'` alike. -/
structure Like (k : Likeness) (before before' : Array Entry) (s t : Sheet) : Prop
    extends Similar k s t where
  log : k.SameLog before before' s.log t.log

variable {k : Likeness} {before before' : Array Entry} {s t : Sheet}

theorem Similar.block (h : s.Similar k t) (id : Nat) : k.SameList (s.block id) (t.block id) := by
  unfold Sheet.block
  rw [← h.blocks]
  refine .refl ?_
  rw [List.getD_eq_getElem?_getD]
  cases hblock : s.blocks[id]? with
  | none => exact fun _ he => nomatch he
  | some trees => exact h.coversBlocks trees (List.mem_of_getElem? hblock)

theorem Similar.blockItem? (h : s.Similar k t) (id index : Nat) :
    s.blockItem? id index = t.blockItem? id index ∧
      ∀ e, s.blockItem? id index = some e → k.Covers e := by
  obtain ⟨heq, hcovers⟩ := h.block id
  unfold Sheet.blockItem?
  exact ⟨by rw [heq], fun e he => hcovers e (List.mem_of_getElem? he)⟩

/-- What is left of a tree in a block. -/
theorem Similar.getD_blockItem? (h : s.Similar k t) (id index : Nat) {e : Expr} (he : k.Covers e) :
    k.Same ((s.blockItem? id index).getD e) ((t.blockItem? id index).getD e) := by
  obtain ⟨heq, hcovers⟩ := h.blockItem? id index
  rw [← heq]
  refine .refl ?_
  cases hitem : s.blockItem? id index with
  | none => exact he
  | some item => exact hcovers item hitem

/-- The steps of a change, up to their explanations. -/
theorem Like.accept (h : s.Like k before before' t) (part : Expr) {result : Expr}
    (hresult : k.Covers result) (approximate : Bool) {text text' : Option String}
    (htext : k.worded → text = text') :
    (s.accept ⟨part, result, text, approximate⟩).Like k before before'
      (t.accept ⟨part, result, text', approximate⟩) := by
  have hstep : (s.stepFor ⟨part, result, text, approximate⟩).unexplained =
      (t.stepFor ⟨part, result, text', approximate⟩).unexplained := by
    unfold stepFor Step.unexplained
    rw [h.tree]
  have hchanges : (s.stepFor ⟨part, result, text, approximate⟩).changes =
      (t.stepFor ⟨part, result, text', approximate⟩).changes := by
    unfold stepFor Step.changes
    rw [h.tree]
  have hwords (hk : k.worded) : s.stepFor ⟨part, result, text, approximate⟩ =
      t.stepFor ⟨part, result, text', approximate⟩ := by
    obtain ⟨hphrasing, hwrite, -⟩ := h.words hk
    unfold stepFor explanation
    rw [h.tree, htext hk, hphrasing, hwrite]
  -- A step that changes the tree is written down whether or not it is explained, and any other step is
  -- not a move, so the explanations decide nothing that is compared.
  have hentries (step : Step) (log : Array Entry) :
      (if step.explanation.isSome || step.changes then log.push (.step step) else log) =
        log ++ if step.explanation.isSome || step.changes then #[.step step] else #[] := by
    split <;> simp
  have hmoves (step : Step) :
      moves (if step.explanation.isSome || step.changes then #[.step step] else #[]) =
        if step.changes then [step.unexplained] else [] := by
    cases hc : step.changes with
    | true => simp [moves, Entry.step?, hc]
    | false => split <;> simp [moves, Entry.step?, hc]
  refine { h with
    tree := by simp only [Sheet.accept, stepFor, h.tree]
    blocks := by simp only [Sheet.accept, h.blocks]
    coversBlocks := ?_
    log := ?_ }
  · intro trees htrees e he
    obtain ⟨trees, hmem, rfl⟩ := List.mem_map.1 htrees
    obtain ⟨e, hmem', rfl⟩ := List.mem_map.1 he
    exact Vocabulary.covers_replace (h.coversBlocks trees hmem e hmem') part hresult
  · simp only [Sheet.accept, hentries]
    refine h.log.append ?_ fun hk => by rw [hwords hk]
    rw [hmoves, hmoves, hchanges, hstep]

theorem Like.remark (h : s.Like k before before' t) {text text' : String} (htext : k.Says text text')
    (pause : Bool) : (s.remark text pause).Like k before before' (t.remark text' pause) := by
  have hentries (s : Sheet) (text : String) :
      s.remark text pause = { s with
        log := s.log ++ if lastText? s.log == some (s.phrasing.restate text) then #[]
          else #[.remark (s.phrasing.restate text) pause] } := by
    rw [remark_eq, lastText?]
    split <;> simp
  have hmoves (c : Bool) (text : String) :
      moves (if c then #[] else #[.remark text pause]) = [] := by
    cases c <;> rfl
  rw [hentries, hentries]
  refine { h with log := h.log.append ?_ fun hk => ?_ }
  · rw [hmoves, hmoves]
  · rw [h.log.lastText? hk, (h.words hk).1, htext hk]

theorem Similar.report (h : s.Similar k t) (status : Status) (reason : String) :
    (s.report status reason).Similar k (t.report status reason) := by
  rw [report_eq, report_eq]
  exact { h with
    status := by simp only [h.status]
    reason := by simp only [h.status, h.reason] }

theorem Similar.record (hk : k.calculus) (h : s.Similar k t) (event : Event) :
    (s.record event).Similar k (t.record event) := by
  rw [record_eq, record_eq]
  exact { h with
    tags := by simp only [h.tags]
    events := by simp only [h.events]
    unrecorded := fun hnot => absurd hk hnot }

theorem Similar.absorb (hk : k.calculus) (h : s.Similar k t) {side side' : Sheet}
    (hside : side.Similar k side') : (s.absorb side).Similar k (t.absorb side') := by
  unfold Sheet.absorb
  rw [← hside.reason, ← hside.status, ← hside.tags, ← hside.events, ← hside.approximate]
  cases side.reason with
  | none =>
    exact { h with
      tags := by simp only [h.tags]
      events := by simp only [h.events]
      approximate := by simp only [h.approximate]
      unrecorded := fun hnot => absurd hk hnot }
  | some reason =>
    have hreport := h.report side.status reason
    exact { hreport with
      tags := by simp only [hreport.tags]
      events := by simp only [hreport.events]
      approximate := by simp only [hreport.approximate]
      unrecorded := fun hnot => absurd hk hnot }

theorem report_log (s : Sheet) (status : Status) (reason : String) :
    (s.report status reason).log = s.log := by
  rw [report_eq]

theorem absorb_log (s side : Sheet) : (s.absorb side).log = s.log := by
  unfold Sheet.absorb
  cases side.reason with
  | none => rfl
  | some reason => exact s.report_log side.status reason

theorem Like.aside (h : s.Like k before before' t) (tree : Expr) {b b' : Bindings}
    (hb : k.SameBindings b b') :
    (s.aside tree b).Like k #[.step (.opening tree)] #[.step (.opening tree)] (t.aside tree b') where
  tree := rfl
  blocks := rfl
  strict := rfl
  skipped := rfl
  approximate := rfl
  status := rfl
  reason := rfl
  events := rfl
  tags := rfl
  bindings := hb
  options := h.options
  words := h.words
  coversBlocks := fun _ hmem => nomatch hmem
  unrecorded := fun _ => rfl
  log := .refl fun _ => ⟨rfl, rfl⟩

end Sheet

end Workings
