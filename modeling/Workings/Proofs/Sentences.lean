import Workings.Proofs.Braces
import Workings.Proofs.Placeholders
import Workings.Proofs.Substituting

/-!
# Expressions in messages

The default sentences have the LaTeX form of an expression put into them before they are searched for
placeholders, once when the message is asked for and once more, with other names, when it explains a step.
LaTeX is full of groups in braces, so a group that is spelled like a placeholder is filled in. If there is
none, the sentence is written down as it is, with the form in its place (`sentences_survive`).
-/

namespace Workings

open Render (Spaced Unbraced)

/-! ### Templates without placeholders -/

namespace Template

/-- Has a group in braces that is one of the given names. -/
def Mentions (names : List String) (text : String) : Prop :=
  ∃ name ∈ names, '\x7b' :: (name.toList ++ ['\x7d']) <:+: text.toList

/-- A placeholder that is found starts the text with its name in braces. -/
theorem placeholder?_eq_none {payload : Payload} {chars : List Char}
    (h : ∀ name ∈ payload.map Prod.fst, ¬ '\x7b' :: (name.toList ++ ['\x7d']) <+: '\x7b' :: chars) :
    placeholder? payload chars = none := by
  refine Option.eq_none_iff_forall_ne_some.2 fun ⟨value, length⟩ hsome => ?_
  obtain ⟨name, text, -, hbegins, hlookup, -⟩ := placeholder?_eq_some_iff.1 hsome
  exact h name (mem_names_of_lookup hlookup) ((List.prefix_cons_inj _).2 hbegins)

theorem fillChars_eq_self {payload : Payload} {chars : List Char}
    (h : ∀ name ∈ payload.map Prod.fst, ¬ '\x7b' :: (name.toList ++ ['\x7d']) <:+: chars) :
    fillChars payload 0 chars = chars := by
  induction chars with
  | nil => rfl
  | cons c rest ih =>
    have hrest := ih fun name hname hoccurs => h name hname (hoccurs.trans (List.suffix_cons c rest).isInfix)
    have hnone : (if c = '\x7b' then placeholder? payload rest else none) = none := by
      split
      · rename_i hc
        subst hc
        exact placeholder?_eq_none fun name hname hbegins => h name hname hbegins.isInfix
      · rfl
    rw [fillChars, hnone, hrest]

/-- A text without a placeholder of the payload is left as it is. -/
theorem fill_eq_self {payload : Payload} {text : String} (h : ¬ Mentions (payload.map Prod.fst) text) :
    fill text payload = text := by
  unfold fill
  rw [fillChars_eq_self fun name hname hoccurs => h ⟨name, hname, hoccurs⟩, String.ofList_toList]

/-- A character that is not in a list divides where the list may occur. -/
theorem infix_append_cons {l a b : List Char} {c : Char} (hc : c ∉ l) (h : l <:+: a ++ c :: b) :
    l <:+: a ∨ l <:+: b := by
  have hbegins {l' : List Char} (hl : l' ⊆ l) (hl' : l' <+: c :: b) : l' = [] := by
    cases l' with
    | nil => rfl
    | cons d ds =>
      obtain ⟨rest, hrest⟩ := hl'
      cases hrest
      exact (hc (hl List.mem_cons_self)).elim
  rcases List.infix_append_iff.1 h with h | h | ⟨l₁, l₂, rfl, h₁, h₂⟩
  · exact .inl h
  · rcases List.infix_cons_iff.1 h with h | h
    · rw [hbegins (fun _ => id) h]
      exact .inl (List.nil_infix)
    · exact .inr h
  · rw [hbegins (List.subset_append_right l₁ l₂) h₂, List.append_nil]
    exact .inl h₁.isInfix

variable {names : List String} {a b text : String}

instance : Decidable (Mentions names text) :=
  inferInstanceAs (Decidable (∃ name ∈ names, '\x7b' :: (name.toList ++ ['\x7d']) <:+: text.toList))

/-- Stands in front of any text without making up a group. -/
def Safe (names : List String) (text : String) : Prop :=
  ∀ rest, ¬ Mentions names rest → ¬ Mentions names (text ++ rest)

theorem not_mentions_of_unbraced (h : Unbraced text) : ¬ Mentions names text := by
  rintro ⟨name, -, hoccurs⟩
  exact h (hoccurs.subset List.mem_cons_self)

theorem Safe.append (ha : Safe names a) (hb : Safe names b) : Safe names (a ++ b) := by
  intro rest hrest
  rw [String.append_assoc]
  exact ha _ (hb rest hrest)

theorem Safe.not_mentions (h : Safe names text) : ¬ Mentions names text := by
  have hempty : ¬ Mentions names "" := not_mentions_of_unbraced (by decide)
  rw [← String.append_empty (s := text)]
  exact h "" hempty

theorem safe_of_unbraced (h : Unbraced text) : Safe names text := by
  rintro rest hrest ⟨name, hname, hoccurs⟩
  rw [String.toList_append] at hoccurs
  rcases List.infix_append_iff.1 hoccurs with hin | hin | ⟨l₁, l₂, heq, h₁, h₂⟩
  · exact h (hin.subset List.mem_cons_self)
  · exact hrest ⟨name, hname, hin⟩
  · cases l₁ with
    | nil =>
      rw [List.nil_append] at heq
      exact hrest ⟨name, hname, heq ▸ h₂.isInfix⟩
    | cons c cs =>
      obtain ⟨rfl, -⟩ := List.cons.inj heq
      exact h (h₁.subset List.mem_cons_self)

/-- A form between dollar signs is closed off. -/
theorem safe_between (hnames : ∀ name ∈ names, '$' ∉ name.toList) (ha : Unbraced a)
    (h : ¬ Mentions names text) {cs : List Char} (hb : b.toList = '$' :: cs) (hunbraced : Unbraced b) :
    Safe names (a ++ text ++ b) := by
  have hfront : ¬ Mentions names (a ++ text) := safe_of_unbraced ha text h
  rintro rest hrest ⟨name, hname, hoccurs⟩
  have hdollar : '$' ∉ '\x7b' :: (name.toList ++ ['\x7d']) := by
    simpa using hnames name hname
  have htail : Unbraced (String.ofList cs) := by
    unfold Unbraced at hunbraced ⊢
    rw [hb, List.mem_cons, not_or] at hunbraced
    rw [String.toList_ofList]
    exact hunbraced.2
  rw [String.toList_append, String.toList_append, hb, List.append_assoc, List.cons_append] at hoccurs
  rcases infix_append_cons hdollar hoccurs with hin | hin
  · exact hfront ⟨name, hname, hin⟩
  · refine safe_of_unbraced htail rest hrest ⟨name, hname, ?_⟩
    rw [String.toList_append, String.toList_ofList]
    exact hin

theorem Mentions.mono {names' : List String} (h : Mentions names text) (hsubset : names ⊆ names') :
    Mentions names' text := by
  obtain ⟨name, hname, hoccurs⟩ := h
  exact ⟨name, hsubset hname, hoccurs⟩

/-- Nothing in it is taken for a placeholder or for a reference. -/
structure Inert (names : List String) (text : String) : Prop where
  spaced : Spaced text
  safe : Safe names text

theorem inert_of_unbraced (h : Unbraced text) : Inert names text :=
  ⟨.of_unbraced h, safe_of_unbraced h⟩

theorem Inert.append (ha : Inert names a) (hb : Inert names b) : Inert names (a ++ b) :=
  ⟨ha.spaced.append hb.spaced, ha.safe.append hb.safe⟩

theorem inert_between (hnames : ∀ name ∈ names, '$' ∉ name.toList) (ha : Unbraced a)
    (hspaced : Spaced text) (h : ¬ Mentions names text) {cs : List Char} (hb : b.toList = '$' :: cs)
    (hunbraced : Unbraced b) : Inert names (a ++ text ++ b) :=
  ⟨((Spaced.of_unbraced ha).append hspaced).append (.of_unbraced hunbraced),
    safe_between hnames ha h hb hunbraced⟩

theorem inert_intercalate {separator : String} (hseparator : Unbraced separator) {texts : List String}
    (h : ∀ text ∈ texts, Inert names text) : Inert names (separator.intercalate texts) :=
  Render.holds_intercalate (inert_of_unbraced (by decide)) (inert_of_unbraced hseparator) .append h

end Template

/-! ### Messages in the default words -/

namespace Catalog

/-- Without two opening braces next to each other there is no reference. -/
theorem expandChars_eq_self (catalog : Catalog) {chars : List Char}
    (h : chars.IsChain fun c d => c = '\x7b' → d ≠ '\x7b') :
    catalog.expandChars 0 chars = pure chars := by
  induction chars with
  | nil => rfl
  | cons c rest ih =>
    have hrest := ih h.tail
    rw [expandChars]
    · rw [hrest]
      rfl
    · rintro rest rfl rfl
      exact (List.isChain_cons.1 h).1 '\x7b' rfl rfl rfl

theorem expand_eq_self (catalog : Catalog) (rounds : ℕ) {text : String} (h : Spaced text) :
    catalog.expand rounds text = pure text := by
  cases rounds with
  | zero => rfl
  | succ rounds =>
    rw [expand, catalog.expandChars_eq_self h.pairs]
    have hsame : (String.ofList text.toList == text) = true := by
      rw [String.ofList_toList, beq_self_eq_true]
    show (if String.ofList text.toList == text then (pure text : Asking String) else _) = _
    rw [if_pos hsame]

theorem template_default {catalog : Catalog} (hoverrides : catalog.messageOverrides = []) (key text : String)
    (missing : Array String) :
    ∃ left, (catalog.template key (some text)).run missing = (text, left) := by
  unfold template
  rw [hoverrides]
  cases catalog.missingKeyPolicy <;> exact ⟨_, rfl⟩

/-- A catalog without overrides answers with the default, filled in. -/
theorem message_default {catalog : Catalog} (hoverrides : catalog.messageOverrides = []) (key : String)
    {text : String} (h : Spaced text) (payload : Payload) (missing : Array String) :
    ((catalog.message key (some text) payload).run missing).1 = Template.fill text payload := by
  obtain ⟨left, htemplate⟩ := template_default hoverrides key text missing
  unfold message
  rw [StateT.run_bind, htemplate]
  dsimp only [bind]
  rw [catalog.expand_eq_self maxRounds h]
  rfl

end Catalog

/-- The sentence in the style of the options. -/
def Options.sentence (options : Options) (verbose concise : String) : String :=
  match options.style with
  | .verbose => verbose
  | .concise => concise

namespace Sheet

/-- Messages are in the default words, and expressions stand in them in LaTeX. -/
structure DefaultWords (s : Sheet) : Prop where
  phrasing : ∃ catalog : Catalog, s.phrasing = catalog.phrasing ∧ catalog.messageOverrides = [] ∧
    catalog.textOverrides = []
  write : s.write = Expr.latex
  wording : ∀ key, s.options.wording.bind (·.template? key s.options.style) = none

variable {s : Sheet}

/-- Options that change no message. -/
theorem defaultWords_new (e : Expr) (bindings : Bindings) {options : Options} (strict : Bool)
    (hprofile : ∀ profile ∈ options.profile, profile.messageOverrides = [] ∧ profile.textOverrides = [])
    (hwording : ∀ wording ∈ options.wording, wording.templates = [] ∧ wording.conciseTemplates = []) :
    (new e bindings options strict).DefaultWords where
  phrasing := by
    refine ⟨Catalog.ofProfile (options.profile.getD {}), rfl, ?_⟩
    cases h : options.profile with
    | none => exact ⟨rfl, rfl⟩
    | some profile => exact hprofile profile h
  write := rfl
  wording key := by
    show options.wording.bind (·.template? key options.style) = none
    rw [Option.bind_eq_none_iff]
    intro wording hmem
    obtain ⟨htemplates, hconcise⟩ := hwording wording hmem
    unfold Wording.template?
    rw [htemplates, hconcise]
    split <;> rfl

theorem DefaultWords.of_same (h : s.DefaultWords) {t : Sheet} (hphrasing : t.phrasing = s.phrasing)
    (hwrite : t.write = s.write) (hoptions : t.options = s.options) : t.DefaultWords :=
  ⟨hphrasing ▸ h.phrasing, hwrite ▸ h.write, hoptions ▸ h.wording⟩

theorem DefaultWords.restate (h : s.DefaultWords) (text : String) : s.phrasing.restate text = text := by
  obtain ⟨catalog, hphrasing, -, htext⟩ := h.phrasing
  rw [hphrasing]
  show (catalog.textOverrides.lookup text).getD text = text
  rw [htext]
  rfl

theorem DefaultWords.exec_wording (h : s.DefaultWords) (key : String) {verbose concise : String}
    (payload : Payload) (hspaced : Spaced (s.options.sentence verbose concise))
    (hmentions : ¬ Template.Mentions (payload.map Prod.fst) (s.options.sentence verbose concise)) :
    ∃ missing, Work.exec (Work.wording key verbose concise payload) s =
      (.ok (s.options.sentence verbose concise), { s with missing }) := by
  obtain ⟨catalog, hphrasing, hmessage, -⟩ := h.phrasing
  have htemplate : s.options.template key verbose concise = s.options.sentence verbose concise := by
    unfold Options.template
    rw [h.wording]
    rfl
  unfold Work.wording
  rw [Work.exec_get_bind, Work.exec_ask, htemplate, hphrasing]
  refine ⟨_, congrArg (fun text => (Except.ok text, _)) ?_⟩
  exact (Catalog.message_default hmessage key hspaced payload _).trans (Template.fill_eq_self hmentions)

end Sheet

/-! ### What is written down -/

/-- The words of an entry. -/
def Entry.words? : Entry → Option String
  | .step s => s.explanation
  | .remark text _ => some text

/-- Between two sheets, the sentence is written down and no other words are. -/
structure Sheet.Says (s t : Sheet) (sentence : String) : Prop where
  only : ∃ entries, t.log = s.log ++ entries ∧
    ∀ entry ∈ entries, ∀ words, entry.words? = some words → words = sentence
  said : ∃ entry ∈ t.log, entry.words? = some sentence

namespace Sheet

variable {s t : Sheet} {sentence : String}

theorem DefaultWords.says_remark (h : s.DefaultWords) (text : String) : s.Says (s.remark text false) text := by
  rw [remark_eq, h.restate]
  by_cases hlast : ((s.log.back?.bind Entry.text?) == some text) = true
  · rw [if_pos hlast]
    obtain ⟨entry, hentry, htext⟩ := Option.bind_eq_some_iff.1 (beq_iff_eq.1 hlast)
    refine ⟨⟨#[], (Array.append_empty).symm, fun _ hmem => absurd hmem (Array.not_mem_empty _)⟩, entry,
      Array.mem_of_back? hentry, ?_⟩
    cases entry with
    | step _ => cases htext
    | remark _ _ => exact htext
  · rw [if_neg hlast]
    refine ⟨⟨#[.remark text false], rfl, fun entry hmem words hwords => ?_⟩, .remark text false,
      Array.mem_push_self, rfl⟩
    obtain rfl := Array.mem_singleton.1 hmem
    exact (Option.some.inj hwords).symm

/-- A step without an explanation says nothing. -/
theorem Says.push (h : s.Says t sentence) {u : Sheet} {step : Step} (hlog : u.log = t.log.push (.step step))
    (hstep : step.explanation = none) : s.Says u sentence := by
  obtain ⟨⟨entries, hentries, honly⟩, entry, hentry, hsaid⟩ := h
  refine ⟨⟨entries.push (.step step), ?_, fun entry hmem words hwords => ?_⟩, entry, ?_, hsaid⟩
  · rw [hlog, hentries, Array.append_push]
  · rcases Array.mem_push.1 hmem with hmem | rfl
    · exact honly entry hmem words hwords
    · exact nomatch hstep.symm.trans hwords
  · rw [hlog]
    exact Array.mem_push_of_mem _ hentry

/-- A change that is not explained says nothing, whether it is made or left out. -/
theorem Says.change (h : s.Says t sentence) (part result e : Expr) :
    s.Says (Work.exec (do Work.change part result; return e) t).2 sentence := by
  have hkept {u : Sheet} (hlog : u.log = t.log) : s.Says u sentence :=
    ⟨hlog ▸ h.only, hlog ▸ h.said⟩
  unfold Work.change
  rw [Work.exec_bind, Work.exec_changeWith]
  split_ifs
  · show s.Says ((t.flag false).accept ⟨part, result, none, false⟩) sentence
    unfold accept
    dsimp only
    split_ifs with hwritten
    · exact h.push rfl rfl
    · exact hkept rfl
  · exact hkept rfl
  · exact hkept rfl

/-- What a step says that is explained by a sentence. -/
theorem DefaultWords.explanation_eq (h : s.DefaultWords) {names : List String} {c : Change} (full : Expr)
    (hc : c.explanation = some sentence) (hne : sentence ≠ "") (hsafe : Template.Safe names sentence)
    (hnames : ["snapshot", "previous", "original", "simplified"] ⊆ names) :
    s.explanation c full = some sentence := by
  unfold explanation
  rw [hc]
  have hnonempty : nonempty? (some sentence) = some sentence := by
    simp [nonempty?, Option.filter, hne]
  rw [hnonempty, Option.map_some, h.restate, Template.fill_eq_self]
  exact fun hmentions => hsafe.not_mentions (hmentions.mono hnames)

/-- A change that occurs and is explained by a sentence says it. -/
theorem DefaultWords.says_accept (h : s.DefaultWords) {names : List String} {c : Change}
    (hc : c.explanation = some sentence) (hne : sentence ≠ "") (hsafe : Template.Safe names sentence)
    (hnames : ["snapshot", "previous", "original", "simplified"] ⊆ names) :
    s.Says ((s.flag c.approximate).accept c) sentence := by
  have hflagged : (s.flag c.approximate).DefaultWords := h.of_same rfl rfl rfl
  have hstep : ((s.flag c.approximate).stepFor c).explanation = some sentence :=
    hflagged.explanation_eq _ hc hne hsafe hnames
  have hlog : ((s.flag c.approximate).accept c).log =
      s.log.push (.step ((s.flag c.approximate).stepFor c)) := by
    unfold accept
    simp only [hstep, Option.isSome_some, Bool.true_or, if_true]
    rfl
  have hmem : .step ((s.flag c.approximate).stepFor c) ∈ ((s.flag c.approximate).accept c).log := by
    rw [hlog]
    exact Array.mem_push_self
  refine ⟨⟨#[.step ((s.flag c.approximate).stepFor c)], ?_, fun entry hmem words hwords => ?_⟩, _, hmem, hstep⟩
  · rw [hlog]
    rfl
  · obtain rfl := Array.mem_singleton.1 hmem
    exact (Option.some.inj (hstep.symm.trans hwords)).symm

end Sheet

/-! ### Messages with expressions in them -/

/-- Values in a row, with the separators in the default words. -/
def listing : List String → String
  | [] => ""
  | [only] => only
  | texts => ", ".intercalate texts.dropLast ++ " and " ++ texts.getLastD ""

/-- The values for symbols, as they stand in a message. -/
def Bindings.listed (bindings : Bindings) : String :=
  listing (bindings.values.map fun (name, value) => "$" ++ name ++ " = " ++ value.latex ++ "$")

open Simplify (OverflowWords)

/-- `Notice s work parts names sentence` says that the work, begun on the sheet, writes down the sentence,
which has the LaTeX forms of the parts in it. The names are those of the placeholders that are filled in. -/
inductive Notice (s : Sheet) : Work Expr → List Expr → List String → String → Prop
  /-- The values that are put in at the start. -/
  | substitution (hvalues : (s.bindings.replaceSymbols s.origin == s.origin) = false) :
    Notice s Work.substituteValues (s.bindings.values.flatMap fun (name, value) => [.sym name, value])
      ["substitutions"]
      (s.options.sentence ("Substitute the given values: " ++ s.bindings.listed ++ ".")
        ("Substitute values: " ++ s.bindings.listed ++ "."))
  /-- Zero to a power of unknown sign. -/
  | zeroPower (current symbolic : Expr) (hcurrent : s.tree.has current = true) :
    Notice s (Simplify.zeroPowerSymbolic current symbolic) [symbolic]
      ["expression", "snapshot", "previous", "original", "simplified"]
      (s.options.sentence
        ("Keep $" ++ symbolic.latex ++ "$ symbolic because the exponent's sign is unknown.")
        "Keep 0^x symbolic when exponent sign is unknown.")
  /-- A power that cannot be represented and stays as it is. -/
  | overflow (words : OverflowWords) (current : Expr) (hwords : words = .limit ∨ words = .result)
    (hpolicy : s.options.overflow = .symbolic) :
    Notice s (Simplify.overflow words current) [current] ["expression"]
      (s.options.sentence
        ("$" ++ current.latex ++ "$ " ++ words.verboseSymbolic ++ ", so we'll keep it in symbolic form.")
        ("Keep $" ++ current.latex ++ "$ symbolic due to " ++ words.conciseSymbolic ++ "."))
  /-- A function outside of its domain. -/
  | undefinedCall (reason : String) (f : Signature) (functional subscript superscript : List Expr)
    (e : Expr) (he : e = .call f functional subscript superscript) :
    Notice s (Work.recover (.undefined reason e)) [e] ["expression", "function_name"]
      (s.options.sentence
        ("Stop here: $" ++ e.latex ++ "$ is undefined for " ++ f.name ++
          ", so the expression is outside its domain.")
        ("$" ++ e.latex ++ "$ is undefined for " ++ f.name ++ "."))
  /-- Any other value outside of its domain. -/
  | undefined (reason : String) (e : Expr) (he : ∀ f as bs cs, e ≠ .call f as bs cs) :
    Notice s (Work.recover (.undefined reason e)) [e] ["expression"]
      (s.options.sentence
        ("Stop here: $" ++ e.latex ++ "$ is undefined in the real-number domain used by this evaluator.")
        ("$" ++ e.latex ++ "$ is undefined."))

open Work (exec exec_bind_ok exec_changeWith exec_options_bind exec_report_bind exec_written_bind)
open Template (Mentions Inert inert_of_unbraced inert_between)

section

variable {s : Sheet} {names : List String} {verbose concise sentence : String}

theorem inert_sentence (options : Options) (hverbose : Inert names verbose)
    (hconcise : Inert names concise) : Inert names (options.sentence verbose concise) := by
  unfold Options.sentence
  split
  · exact hverbose
  · exact hconcise

theorem Sheet.Says.of_log {t u : Sheet} (h : s.Says t sentence) (hlog : s.log = u.log) :
    u.Says t sentence :=
  ⟨hlog ▸ h.only, h.said⟩

/-- A message that is written down as a remark. -/
theorem Sheet.DefaultWords.says_remarkOn {α : Type} (h : s.DefaultWords) (key : String) (payload : Payload)
    (hinert : Inert (payload.map Prod.fst) (s.options.sentence verbose concise)) (f : Unit → Work α) :
    ∃ t, s.Says t (s.options.sentence verbose concise) ∧
      exec (do Work.remark (← Work.wording key verbose concise payload); f ()) s = exec (f ()) t := by
  obtain ⟨missing, hwording⟩ := h.exec_wording key payload hinert.spaced hinert.safe.not_mentions
  have hasked : Sheet.DefaultWords { s with missing } := h.of_same rfl rfl rfl
  exact ⟨Sheet.remark { s with missing } (s.options.sentence verbose concise) false,
    (hasked.says_remark _).of_log rfl, (exec_bind_ok hwording).trans rfl⟩

/-- A report leaves the words of a sheet alone. -/
theorem Sheet.DefaultWords.report (h : s.DefaultWords) (status : Status) (reason : String) :
    (s.report status reason).DefaultWords ∧ (s.report status reason).options = s.options ∧
      (s.report status reason).log = s.log ∧ (s.report status reason).tree = s.tree := by
  rw [Sheet.report_eq]
  exact ⟨h.of_same rfl rfl rfl, rfl, rfl, rfl⟩

/-- The message on a value outside of its domain is written down in the end. -/
theorem says_recover (hs : s.DefaultWords) (reason : String) {e : Expr} (key : String) (payload : Payload)
    (hmessage : ∀ t : Sheet, t.write = Expr.latex →
      exec (Work.undefinedMessage e) t = exec (Work.wording key verbose concise payload) t)
    (hinert : Inert (payload.map Prod.fst) (s.options.sentence verbose concise)) :
    s.Says (exec (Work.recover (.undefined reason e)) s).2 (s.options.sentence verbose concise) := by
  obtain ⟨hwords, hoptions, hlog, -⟩ := hs.report .unsolved "math_domain_error"
  rw [← hoptions] at hinert ⊢
  obtain ⟨t, hnoted, hexec⟩ := hwords.says_remarkOn key payload hinert fun _ => do return (← get).tree
  have hrecover : exec (Work.recover (.undefined reason e)) s = (.ok t.tree, t) := by
    unfold Work.recover
    rw [exec_report_bind, Work.exec_bind, hmessage _ hwords.write, ← Work.exec_bind]
    exact hexec
  rw [hrecover]
  exact hnoted.of_log hlog

/-- The message on a power of zero is written down with its step, where it is filled in once more. -/
theorem says_zeroPower (hs : s.DefaultWords) {current symbolic : Expr} (hcurrent : s.tree.has current = true)
    (hinert : Inert ["expression", "snapshot", "previous", "original", "simplified"] (s.options.sentence
      ("Keep $" ++ symbolic.latex ++ "$ symbolic because the exponent's sign is unknown.")
      "Keep 0^x symbolic when exponent sign is unknown.")) :
    s.Says (exec (Simplify.zeroPowerSymbolic current symbolic) s).2 (s.options.sentence
      ("Keep $" ++ symbolic.latex ++ "$ symbolic because the exponent's sign is unknown.")
      "Keep 0^x symbolic when exponent sign is unknown.") := by
  obtain ⟨hwords, hoptions, hlog, htree⟩ := hs.report .partly "zero_base_symbolic_exponent"
  rw [← hoptions] at hinert ⊢
  generalize hsentence : (s.report .partly "zero_base_symbolic_exponent").options.sentence _ _ = sentence
    at hinert ⊢
  have hne : sentence ≠ "" := by
    rw [← hsentence]
    unfold Options.sentence
    split
    · exact fun h => by simpa using congrArg String.toList h
    · decide
  have hnot := hinert.safe.not_mentions
  obtain ⟨missing, hwording⟩ := hwords.exec_wording "zero_power_symbolic" [("expression", symbolic.latex)]
    (hsentence ▸ hinert.spaced) fun hmentions => hnot ((hsentence ▸ hmentions).mono (by simp))
  rw [hsentence] at hwording
  have hasked : Sheet.DefaultWords { s.report .partly "zero_base_symbolic_exponent" with missing } :=
    hwords.of_same rfl rfl rfl
  unfold Simplify.zeroPowerSymbolic Work.explain
  rw [exec_written_bind, hs.write, exec_report_bind, exec_bind_ok hwording,
    exec_bind_ok (by rw [exec_changeWith, if_pos (htree ▸ hcurrent)])]
  refine (hasked.says_accept rfl hne hinert.safe ?_).of_log hlog
  decide

theorem exec_ask_of_run {α : Type} {question : Asking α} {answer : α} {left : Array String}
    (h : question.run s.missing = (answer, left)) :
    exec (Work.ask question) s = (.ok answer, { s with missing := left }) := by
  rw [Work.exec_ask, h]

theorem exec_joinValues (hs : s.DefaultWords) (texts : List String) :
    ∃ missing, exec (Work.joinValues texts) s = (.ok (listing texts), { s with missing }) := by
  obtain ⟨catalog, hphrasing, hmessage, -⟩ := hs.phrasing
  have htemplate (key text : String) (missing : Array String) :
      ∃ left, (s.phrasing.template key (some text)).run missing = (text, left) := by
    rw [hphrasing]
    exact Catalog.template_default hmessage key text missing
  obtain ⟨first, hpair⟩ := htemplate "substitution.separator_pair" " and " s.missing
  obtain ⟨second, hmany⟩ := htemplate "substitution.separator_many" ", " first
  have hasked : exec (Work.ask (s.phrasing.template "substitution.separator_pair" (some " and "))) s =
      (.ok " and ", { s with missing := first }) := exec_ask_of_run hpair
  have hasked' : exec (Work.ask (s.phrasing.template "substitution.separator_many" (some ", ")))
      { s with missing := first } = (.ok ", ", { s with missing := second }) := exec_ask_of_run hmany
  refine ⟨second, ?_⟩
  unfold Work.joinValues
  rw [Work.exec_get_bind]
  dsimp only
  rw [exec_bind_ok hasked, exec_bind_ok hasked']
  match texts with
  | [] | [_] | _ :: _ :: _ => rfl

theorem inert_listing {texts : List String} (h : ∀ text ∈ texts, Inert names text) :
    Inert names (listing texts) := by
  unfold listing
  split
  · exact inert_of_unbraced (by decide)
  · exact h _ List.mem_cons_self
  · refine ((Template.inert_intercalate (by decide) fun text htext =>
      h text (List.mem_of_mem_dropLast htext)).append (inert_of_unbraced (by decide))).append ?_
    cases hlast : texts.getLast? with
    | none =>
      rw [List.getLastD_eq_getLast?, hlast]
      exact inert_of_unbraced (by decide)
    | some text =>
      rw [List.getLastD_eq_getLast?, hlast]
      exact h text (List.mem_of_getLast? hlast)

theorem inert_listed {bindings : Bindings}
    (hnames : ∀ e ∈ bindings.values.flatMap (fun (name, value) => [Expr.sym name, value]),
      e.Everywhere Expr.UnbracedNames)
    (hgroups : ∀ e ∈ bindings.values.flatMap (fun (name, value) => [Expr.sym name, value]),
      ¬ Mentions ["substitutions"] e.latex) : Inert ["substitutions"] bindings.listed := by
  refine inert_listing (List.forall_mem_map.2 fun (name, value) hmem => ?_)
  have hpart {e : Expr} (he : e ∈ [Expr.sym name, value]) :
      e ∈ bindings.values.flatMap (fun (name, value) => [Expr.sym name, value]) :=
    List.mem_flatMap.2 ⟨(name, value), hmem, he⟩
  have hname : Unbraced name := (hnames (.sym name) (hpart (.head _))).here
  have hvalue : value ∈ [Expr.sym name, value] := .tail _ (.head _)
  exact inert_between (by decide)
    (Render.unbraced_append (Render.unbraced_append (by decide) hname) (by decide))
    (Render.spaced_latex (hnames value (hpart hvalue))) (hgroups value (hpart hvalue)) rfl (by decide)

theorem says_substitution (hs : s.DefaultWords)
    (hvalues : (s.bindings.replaceSymbols s.origin == s.origin) = false)
    (hinert : Inert ["substitutions"] (s.options.sentence
      ("Substitute the given values: " ++ s.bindings.listed ++ ".")
      ("Substitute values: " ++ s.bindings.listed ++ "."))) :
    s.Says (exec Work.substituteValues s).2 (s.options.sentence
      ("Substitute the given values: " ++ s.bindings.listed ++ ".")
      ("Substitute values: " ++ s.bindings.listed ++ ".")) := by
  have htexts : (s.bindings.values.map fun (name, value) => "$" ++ name ++ " = " ++ s.write value ++ "$") =
      s.bindings.values.map fun (name, value) => "$" ++ name ++ " = " ++ value.latex ++ "$" := by
    rw [hs.write]
  obtain ⟨missing, hlisted⟩ := exec_joinValues hs
    (s.bindings.values.map fun (name, value) => "$" ++ name ++ " = " ++ s.write value ++ "$")
  rw [htexts] at hlisted
  have hasked : Sheet.DefaultWords { s with missing } := hs.of_same rfl rfl rfl
  obtain ⟨t, hnoted, hexec⟩ := hasked.says_remarkOn "substitution_intro"
    [("substitutions", s.bindings.listed)] hinert fun _ => do
      Work.change s.origin (s.bindings.replaceSymbols s.origin)
      return s.bindings.replaceSymbols s.origin
  have hrun : exec Work.substituteValues s = exec (do
      Work.change s.origin (s.bindings.replaceSymbols s.origin)
      return s.bindings.replaceSymbols s.origin) t := by
    rw [← hexec]
    unfold Work.substituteValues
    rw [Work.exec_get_bind]
    dsimp only
    rw [hvalues, htexts]
    simp only [Bool.not_false, if_true]
    rw [exec_bind_ok hlisted]
    rfl
  rw [hrun]
  exact (hnoted.of_log (u := s) rfl).change _ _ _

end

namespace Notice

variable {s : Sheet} {work : Work Expr} {parts : List Expr} {names : List String} {sentence : String}

/-- No part of the sentence is filled in if no group in a form is spelled like one of the placeholders. -/
theorem inert (h : Notice s work parts names sentence) (hnames : ∀ e ∈ parts, e.Everywhere Expr.UnbracedNames)
    (hgroups : ∀ e ∈ parts, ¬ Mentions names e.latex) : Inert names sentence := by
  have hspaced : ∀ e ∈ parts, Spaced e.latex := fun e he => Render.spaced_latex (hnames e he)
  cases h with
  | substitution hvalues =>
    have hlisted := inert_listed hnames hgroups
    exact inert_sentence s.options
      (((inert_of_unbraced (by decide)).append hlisted).append (inert_of_unbraced (by decide)))
      (((inert_of_unbraced (by decide)).append hlisted).append (inert_of_unbraced (by decide)))
  | zeroPower current symbolic hcurrent =>
    exact inert_sentence s.options
      (inert_between (by decide) (by decide) (hspaced _ (.head _)) (hgroups _ (.head _)) rfl (by decide))
      (inert_of_unbraced (by decide))
  | overflow words current hwords hpolicy =>
    have hverbose : Unbraced words.verboseSymbolic := by rcases hwords with rfl | rfl <;> decide
    have hconcise : Unbraced words.conciseSymbolic := by rcases hwords with rfl | rfl <;> decide
    exact inert_sentence s.options
      (((inert_between (by decide) (by decide) (hspaced _ (.head _)) (hgroups _ (.head _)) rfl
        (by decide)).append (inert_of_unbraced hverbose)).append (inert_of_unbraced (by decide)))
      (((inert_between (by decide) (by decide) (hspaced _ (.head _)) (hgroups _ (.head _)) rfl
        (by decide)).append (inert_of_unbraced hconcise)).append (inert_of_unbraced (by decide)))
  | undefinedCall reason f functional subscript superscript e he =>
    have hname : Unbraced f.name := (he ▸ hnames e (.head _)).here
    exact inert_sentence s.options
      (((inert_between (by decide) (by decide) (hspaced _ (.head _)) (hgroups _ (.head _)) rfl
        (by decide)).append (inert_of_unbraced hname)).append (inert_of_unbraced (by decide)))
      (((inert_between (by decide) (by decide) (hspaced _ (.head _)) (hgroups _ (.head _)) rfl
        (by decide)).append (inert_of_unbraced hname)).append (inert_of_unbraced (by decide)))
  | undefined reason e he =>
    exact inert_sentence s.options
      (inert_between (by decide) (by decide) (hspaced _ (.head _)) (hgroups _ (.head _)) rfl (by decide))
      (inert_between (by decide) (by decide) (hspaced _ (.head _)) (hgroups _ (.head _)) rfl (by decide))

/-- A sentence in which nothing is filled in is written down. -/
theorem writes (h : Notice s work parts names sentence) (hs : s.DefaultWords) (hinert : Inert names sentence) :
    s.Says (exec work s).2 sentence := by
  cases h with
  | substitution hvalues => exact says_substitution hs hvalues hinert
  | zeroPower current symbolic hcurrent => exact says_zeroPower hs hcurrent hinert
  | overflow words current hwords hpolicy =>
    obtain ⟨t, hnoted, hexec⟩ := hs.says_remarkOn words.symbolicKey [("expression", current.latex)] hinert
      fun _ => pure current
    unfold Simplify.overflow
    rw [exec_options_bind, hpolicy]
    dsimp only
    rw [exec_written_bind, hs.write, hexec]
    exact hnoted
  | undefinedCall reason f functional subscript superscript e he =>
    refine says_recover hs reason "domain_error_function"
      [("expression", e.latex), ("function_name", f.name)] (fun t ht => ?_) hinert
    unfold Work.undefinedMessage
    rw [exec_written_bind, ht]
    subst he
    rfl
  | undefined reason e he =>
    refine says_recover hs reason "domain_error_generic" [("expression", e.latex)] (fun t ht => ?_) hinert
    unfold Work.undefinedMessage
    rw [exec_written_bind, ht]
    cases e with
    | call f as bs cs => exact (he f as bs cs rfl).elim
    | num _ | sym _ | sum _ | prod _ | pow _ _ | deriv _ _ | integral _ _ _ _ => rfl

end Notice

/-- The sentence is written down with the forms in it as they are, if no name in the parts has an opening brace
and no group in a form is spelled like one of the placeholders. -/
theorem sentences_survive {s : Sheet} {work : Work Expr} {parts : List Expr} {names : List String}
    {sentence : String} (h : Notice s work parts names sentence) (hs : s.DefaultWords)
    (hnames : ∀ e ∈ parts, e.Everywhere Expr.UnbracedNames)
    (hgroups : ∀ e ∈ parts, ¬ Mentions names e.latex) :
    s.Says (exec work s).2 sentence :=
  h.writes hs (h.inert hnames hgroups)

/-- Zero to the power of a symbol, whose sign is unknown. -/
def zeroPower (name : String) : Expr :=
  .pow 0 (.sym name)

theorem sentences_survive_zero_power :
    (Sheet.new (zeroPower "xy") {} {} true).Says
      (exec (Simplify.zeroPowerSymbolic (zeroPower "xy") (zeroPower "xy"))
        (Sheet.new (zeroPower "xy") {} {} true)).2
      "Keep $0^\x7bxy\x7d$ symbolic because the exponent's sign is unknown." := by
  have hnames : (zeroPower "xy").Everywhere Expr.UnbracedNames := by
    refine .intro trivial (List.forall_mem_cons.2 ⟨.num trivial, List.forall_mem_singleton.2 ?_⟩)
    exact .intro (show Unbraced "xy" by decide) fun _ hpart => nomatch hpart
  exact sentences_survive (.zeroPower (zeroPower "xy") (zeroPower "xy") (by decide +kernel))
    (Sheet.defaultWords_new (zeroPower "xy") {} true (fun _ h => nomatch h) fun _ h => nomatch h)
    (List.forall_mem_singleton.2 hnames) (List.forall_mem_singleton.2 (by decide +kernel))

/-- A symbol that is spelled like a placeholder is filled in where its name stands in braces. -/
theorem zero_power_refilled :
    (zeroPower "previous").latex = "0^\x7bprevious\x7d" ∧
      ∃ result sheet, solve (zeroPower "previous") {} {} true = .ok (result, sheet) ∧
        sheet.log.toList.filterMap Entry.words? =
          ["Keep $0^0^\x7bprevious\x7d$ symbolic because the exponent's sign is unknown."] := by
  obtain ⟨result, sheet, hsolve, hwords⟩ := exists_of_solves
    (show Solves (zeroPower "previous") {} {} true (fun _ sheet => sheet.log.toList.filterMap Entry.words? ==
      ["Keep $0^0^\x7bprevious\x7d$ symbolic because the exponent's sign is unknown."]) = true by
        decide +kernel)
  exact ⟨by decide +kernel, result, sheet, hsolve, beq_iff_eq.1 hwords⟩

end Workings
