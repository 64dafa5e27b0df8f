import Workings.Proofs.Bases
import Workings.Proofs.Building

/-!
# Braces in LaTeX

Where no name in an expression has an opening brace, no two opening braces stand next to each other in its
LaTeX form (`Render.spaced_latex`): a group in braces is always opened after a mark, and no text starts with
a group, also when the sign and the blanks at its start are taken off. So the form is never taken for a
reference to another message.
-/

namespace Workings

namespace Render

/-- Not dropped at the start of a text that is subtracted. -/
def isSolid (c : Char) : Bool :=
  c != '-' && !Text.isBlank c

/-- No two opening braces are next to each other, and none comes last or before anything solid. -/
structure Spaced (text : String) : Prop where
  pairs : text.toList.IsChain fun c d => c = '\x7b' → d ≠ '\x7b'
  last : text.toList.getLast? ≠ some '\x7b'
  first : (text.toList.dropWhile fun c => !isSolid c).head? ≠ some '\x7b'

/-- Without an opening brace. -/
def Unbraced (text : String) : Prop :=
  '\x7b' ∉ text.toList

instance (text : String) : Decidable (Unbraced text) :=
  inferInstanceAs (Decidable ('\x7b' ∉ text.toList))

namespace Spaced

variable {a b text : String}

theorem of_unbraced (h : Unbraced text) : Spaced text where
  pairs := by
    refine List.Pairwise.isChain (List.pairwise_of_forall_mem_list ?_)
    rintro c hc - - rfl
    exact (h hc).elim
  last hlast := h (List.mem_of_getLast? hlast)
  first hfirst := h (List.dropWhile_suffix _ |>.subset (List.mem_of_head? hfirst))

theorem append (ha : Spaced a) (hb : Spaced b) : Spaced (a ++ b) where
  pairs := by
    rw [String.toList_append, List.isChain_append]
    refine ⟨ha.pairs, hb.pairs, ?_⟩
    rintro c hc _ _ rfl
    exact (ha.last hc).elim
  last := by
    rw [String.toList_append, List.getLast?_append]
    have hlast := hb.last
    cases h : b.toList.getLast? with
    | none => exact ha.last
    | some c =>
      rw [h] at hlast
      exact hlast
  first := by
    rw [String.toList_append, List.dropWhile_append]
    split
    · exact hb.first
    · rename_i hsolid
      rw [List.head?_append_of_ne_nil _ (by simpa using hsolid)]
      exact ha.first

theorem head (h : Spaced text) : text.toList.head? ≠ some '\x7b' := by
  intro hhead
  obtain ⟨cs, hcs⟩ := List.head?_eq_some_iff.1 hhead
  have hfirst := h.first
  rw [hcs] at hfirst
  exact hfirst rfl

/-- A group may follow anything solid. -/
theorem braced (ha : Spaced a) (hsolid : a.toList.any isSolid = true) (h : Spaced text) :
    Spaced (a ++ braced text) := by
  have hgroup : (a ++ Render.braced text).toList = a.toList ++ '\x7b' :: (text.toList ++ ['\x7d']) := by
    simp [Render.braced]
  have hhead := h.head
  refine ⟨?_, ?_, ?_⟩
  · rw [hgroup, List.isChain_append]
    refine ⟨ha.pairs, ?_, fun c hc _ _ hbrace => (ha.last (hbrace ▸ hc)).elim⟩
    rw [List.isChain_cons, List.isChain_append]
    refine ⟨?_, h.pairs, List.isChain_singleton _, ?_⟩
    · rintro c hc - rfl
      cases hcs : text.toList with
      | nil => simp [hcs] at hc
      | cons d ds =>
        simp only [hcs, List.cons_append, List.head?_cons, Option.mem_def, Option.some.injEq] at hc
        rw [hcs, hc] at hhead
        exact hhead rfl
    · intro _ _ c hc _ hbrace
      rw [List.head?_singleton, Option.mem_some_iff, hbrace] at hc
      cases hc
  · rw [hgroup, ← List.cons_append, ← List.append_assoc, List.getLast?_concat]
    decide
  · obtain ⟨c, hc, hcsolid⟩ := List.any_eq_true.1 hsolid
    have hne : a.toList.dropWhile (fun c => !isSolid c) ≠ [] := by
      intro hnil
      have hall := List.dropWhile_eq_nil_iff.1 hnil c hc
      rw [hcsolid] at hall
      cases hall
    rw [hgroup, List.dropWhile_append, if_neg (by simpa using hne), List.head?_append_of_ne_nil _ hne]
    exact ha.first

/-- What is left when a minus sign and the blanks after it are taken off. -/
theorem dropSign (h : Spaced text) (hsign : startsWithMinus text = true) :
    Spaced (Text.dropBlank (String.ofList (text.toList.drop 1))) := by
  obtain ⟨rest, hrest⟩ : ∃ rest, text.toList = '-' :: rest :=
    List.head?_eq_some_iff.1 (beq_iff_eq.1 hsign)
  have htoList : (Text.dropBlank (String.ofList (text.toList.drop 1))).toList =
      rest.dropWhile Text.isBlank := by
    simp [Text.dropBlank, hrest]
  have hsuffix : rest.dropWhile Text.isBlank <:+ text.toList := by
    rw [hrest]
    exact (List.dropWhile_suffix _).trans (List.suffix_cons _ _)
  refine ⟨?_, ?_, ?_⟩
  · rw [htoList]
    exact h.pairs.suffix hsuffix
  · rw [htoList]
    intro hlast
    obtain ⟨before, hbefore⟩ := hsuffix
    refine h.last ?_
    rw [← hbefore, List.getLast?_append, hlast]
    rfl
  · have hfirst := h.first
    rw [hrest] at hfirst
    have hdrop (cs : List Char) : (cs.dropWhile Text.isBlank).dropWhile (fun c => !isSolid c) =
        cs.dropWhile fun c => !isSolid c := by
      induction cs with
      | nil => rfl
      | cons c cs ih =>
        rw [List.dropWhile_cons]
        split
        · rename_i hblank
          rw [ih, List.dropWhile_cons_of_pos]
          simp [isSolid, hblank]
        · rfl
    rw [htoList, hdrop]
    exact hfirst

end Spaced

/-! ### Marks -/

theorem unbraced_append {a b : String} (ha : Unbraced a) (hb : Unbraced b) : Unbraced (a ++ b) := by
  unfold Unbraced
  rw [String.toList_append, List.mem_append]
  exact not_or.2 ⟨ha, hb⟩

theorem unbraced_toString (n : ℕ) : Unbraced (toString n) := by
  intro hmem
  have hdigit : Char.isDigit '\x7b' = true :=
    Nat.isDigit_of_mem_toDigits (by decide) (by decide) (Nat.toList_repr ▸ hmem)
  exact absurd hdigit (by decide)

theorem unbraced_text (n : Number) : Unbraced n.text := by
  intro hmem
  rcases n.mem_text _ hmem with h | h <;> exact absurd h (by decide)

theorem spaced_latexNumber (n : Number) : Spaced (latexNumber n) := by
  refine .of_unbraced ?_
  unfold latexNumber number
  split
  · decide
  · exact unbraced_text n

section

variable {text a b : String} {texts : List String}

theorem spaced_grouped (h : Spaced text) (group : Bool) : Spaced (grouped group text) := by
  cases group with
  | false => exact h
  | true =>
    have hopen : Spaced "(" := .of_unbraced (by decide)
    have hclose : Spaced ")" := .of_unbraced (by decide)
    exact (hopen.append h).append hclose

theorem solid_append (h : a.toList.any isSolid = true) (b : String) :
    (a ++ b).toList.any isSolid = true := by
  rw [String.toList_append, List.any_append, h, Bool.true_or]

theorem spaced_frac (ha : Spaced a) (hb : Spaced b) : Spaced (frac a b) := by
  have hmark : Spaced "\\frac" := .of_unbraced (by decide)
  exact (hmark.braced (by decide) ha).braced (solid_append (by decide) _) hb

theorem spaced_script {mark : String} (hmark : Unbraced mark) (hsolid : mark.toList.any isSolid = true)
    (h : Spaced text) : Spaced (script mark text) := by
  unfold script
  split
  · exact (Spaced.of_unbraced hmark).append h
  · exact (Spaced.of_unbraced hmark).braced hsolid h

/-- What is kept when texts are put next to each other holds of a list of texts if it holds of each one, of
what stands between them, and of nothing. -/
theorem holds_intercalate {p : String → Prop} {separator : String} (hempty : p "") (hseparator : p separator)
    (happend : ∀ {a b}, p a → p b → p (a ++ b)) (h : ∀ text ∈ texts, p text) :
    p (separator.intercalate texts) := by
  induction texts with
  | nil => simpa using hempty
  | cons text texts ih =>
    obtain ⟨htext, htexts⟩ := List.forall_mem_cons.1 h
    cases texts with
    | nil => simpa using htext
    | cons second rest =>
      rw [String.intercalate_cons_cons]
      exact happend (happend htext hseparator) (ih htexts)

theorem spaced_intercalate {separator : String} (hseparator : Unbraced separator)
    (h : ∀ text ∈ texts, Spaced text) : Spaced (separator.intercalate texts) :=
  holds_intercalate (.of_unbraced (by decide)) (.of_unbraced hseparator) .append h

theorem spaced_scriptList {mark : String} (hmark : Unbraced mark) (hsolid : mark.toList.any isSolid = true)
    (h : ∀ text ∈ texts, Spaced text) : Spaced (scriptList mark texts) := by
  unfold scriptList
  split
  · exact .of_unbraced (by decide)
  · exact spaced_script hmark hsolid (h _ List.mem_cons_self)
  · exact (Spaced.of_unbraced hmark).braced hsolid
      (spaced_intercalate (by decide) h)

theorem spaced_join {α : Type} {write : α → String} {items : List α}
    (h : ∀ item ∈ items, Spaced (write item)) : Spaced (String.join (items.map write)) := by
  induction items with
  | nil => exact .of_unbraced (show Unbraced "" by decide)
  | cons item items ih =>
    obtain ⟨hitem, hitems⟩ := List.forall_mem_cons.1 h
    rw [List.map_cons, String.join_cons]
    exact hitem.append (ih hitems)

theorem spaced_joinSigned {terms : List (Bool × String)} (h : ∀ term ∈ terms, Spaced term.2) :
    Spaced (joinSigned terms) := by
  cases terms with
  | nil => exact .of_unbraced (by decide)
  | cons first rest =>
    obtain ⟨hfirst, hrest⟩ := List.forall_mem_cons.1 h
    have hsign (sign : Bool) : Spaced (if sign then " - " else " + ") := by
      cases sign <;> exact .of_unbraced (by decide)
    have hfront (sign : Bool) : Spaced (if sign then "-" else "") := by
      cases sign <;> exact .of_unbraced (by decide)
    exact ((hfront _).append hfirst).append
      (spaced_join fun term hterm => (hsign _).append (hrest term hterm))

theorem spaced_juxtapose {mark : String → String} (hmark : ∀ text, Spaced text → Spaced (mark text))
    (before : Option String) (h : ∀ text ∈ texts, Spaced text) : Spaced (juxtapose mark before texts) := by
  induction texts generalizing before with
  | nil => exact .of_unbraced (by simp [Unbraced, juxtapose])
  | cons text texts ih =>
    obtain ⟨htext, htexts⟩ := List.forall_mem_cons.1 h
    unfold juxtapose
    extract_lets misread
    refine Spaced.append ?_ (ih _ htexts)
    split
    · exact hmark text htext
    · exact htext

theorem mapM_texts (form : Expr → String) (es : List Expr) :
    es.mapM (fun e => some (form e)) = some (es.map form) :=
  List.mapM_pure

theorem spaced_product {form : Expr → String} {factors : List Expr}
    (h : ∀ factor ∈ factors, Spaced (form factor))
    (hproduct : product (fun e => some (form e)) (grouped true) factors = some text) : Spaced text := by
  obtain ⟨sign, rest, hrest, heq⟩ := product_eq (grouped true) factors
  rw [heq, mapM_texts] at hproduct
  obtain rfl := Option.some.inj hproduct
  have hbody (before : Option String) : Spaced (juxtapose (grouped true) before (rest.map form)) :=
    spaced_juxtapose (fun _ htext => spaced_grouped htext true) before
      (List.forall_mem_map.2 fun factor hfactor => h factor (hrest hfactor))
  have hone : Spaced "1" := .of_unbraced (by decide)
  have hwhole {text : String} (htext : Spaced text) : Spaced (if text.isEmpty then "1" else text) := by
    split
    · exact hone
    · exact htext
  cases sign with
  | true => exact hwhole (Spaced.append (.of_unbraced (by decide)) (hbody _))
  | false => exact hwhole (hbody _)

end

end Render

/-! ### Names -/

/-- The names at a node have no opening brace. -/
def Expr.UnbracedNames : Expr → Prop
  | .sym name => Render.Unbraced name
  | .call f _ _ _ => Render.Unbraced f.name
  | .deriv _ vars => ∀ v ∈ vars, Render.Unbraced v.1
  | .integral _ var _ _ => Render.Unbraced var
  | .num _ | .sum _ | .prod _ | .pow _ _ => True

namespace Render

open Workings.Expr (UnbracedNames Everywhere)

theorem everywhere_underBar? {factor under : Expr} (hfactor : factor.Everywhere UnbracedNames)
    (h : underBar? factor = some under) : under.Everywhere UnbracedNames := by
  cases factor with
  | pow base exponent =>
    obtain ⟨n, -, rfl⟩ := Option.map_eq_some_iff.1 h
    exact Expr.everywhere_buildPow trivial trivial (hfactor.parts base (.head _)) (.num trivial)
  | num _ | sym _ | sum _ | prod _ | call _ _ _ _ | deriv _ _ | integral _ _ _ _ => cases h

theorem everywhere_buildProd {factors : List Expr} (h : ∀ f ∈ factors, f.Everywhere UnbracedNames) :
    (Expr.buildProd factors).Everywhere UnbracedNames :=
  Expr.everywhere_buildProd trivial trivial (fun _ _ => trivial) h

theorem everywhere_unsigned? {term magnitude : Expr} (hterm : term.Everywhere UnbracedNames)
    (h : unsigned? term = some magnitude) : magnitude.Everywhere UnbracedNames := by
  unfold unsigned? at h
  split at h
  · split at h <;> cases h
    exact .num trivial
  · have hrest := (List.forall_mem_cons.1 hterm.factors).2
    split at h
    · split at h <;> cases h
      · exact everywhere_buildProd hrest
      · exact everywhere_buildProd (List.forall_mem_cons.2 ⟨.num trivial, hrest⟩)
    · cases h
  · cases h

mutual

theorem everywhere_termsOf {p : Expr → Prop} (e : Expr) (h : e.Everywhere p) :
    ∀ t ∈ termsOf e, t.Everywhere p := by
  cases e with
  | sum terms => exact everywhere_allTerms terms h.terms
  | num _ | sym _ | prod _ | pow _ _ | call _ _ _ _ | deriv _ _ | integral _ _ _ _ =>
    exact List.forall_mem_singleton.2 h

theorem everywhere_allTerms {p : Expr → Prop} (terms : List Expr) (h : ∀ t ∈ terms, t.Everywhere p) :
    ∀ t ∈ allTerms terms, t.Everywhere p := by
  cases terms with
  | nil => exact h
  | cons e es =>
    obtain ⟨he, hes⟩ := List.forall_mem_cons.1 h
    exact List.forall_mem_append.2 ⟨everywhere_termsOf e he, everywhere_allTerms es hes⟩

end

/-! ### Expressions -/

/-- The variables of a derivative have groups after marks only. -/
theorem spaced_derivOperator {vars : List (String × ℕ)} (h : ∀ v ∈ vars, Unbraced v.1) :
    Spaced (derivOperator vars) := by
  have hcaret (mark : String) (n : ℕ) (hmark : Unbraced mark) (hsolid : mark.toList.any isSolid = true) :
      Spaced (mark ++ braced (toString n)) :=
    (Spaced.of_unbraced hmark).braced hsolid (.of_unbraced (unbraced_toString n))
  refine spaced_frac ?_ (spaced_intercalate (by decide) (List.forall_mem_map.2 fun v hv => ?_))
  · split
    · exact .of_unbraced (by decide)
    · exact hcaret _ _ (by decide) (by decide)
  · refine ((Spaced.of_unbraced (by decide)).append (.of_unbraced (h v hv))).append ?_
    split
    · exact .of_unbraced (by decide)
    · exact hcaret _ _ (by decide) (by decide)

theorem spaced_signed {term : Expr} (h : Spaced term.latex)
    (hmagnitude : ∀ magnitude, unsigned? term = some magnitude → Spaced magnitude.latex) :
    Spaced (signed Expr.latex term).2 := by
  have hsigned := signedTerm_eq Expr.latex term
  generalize signed Expr.latex term = result at hsigned ⊢
  change (if startsWithMinus term.latex then _ else _) = _ at hsigned
  split at hsigned
  · rename_i hsign
    cases hsigned
    exact h.dropSign hsign
  · split at hsigned
    · rename_i magnitude hsome
      cases hsigned
      exact hmagnitude magnitude hsome
    · cases hsigned
      exact h

/-- The base of a power is its text, with parentheses or without. -/
theorem latexBase_eq (base : Expr) : ∃ group group', latexBase (fun group part => some (latexText group part))
    base = some (grouped group (latexText group' base)) := by
  have heq := (latexText_eq false base).symm
  unfold latexBase
  split
  · exact ⟨_, false, congrArg (fun text => some (grouped _ text)) (Option.some.inj heq)⟩
  · split
    · exact ⟨true, false, rfl⟩
    · exact ⟨false, true, rfl⟩
  · split
    · exact ⟨true, false, rfl⟩
    · exact ⟨false, true, rfl⟩
  · exact ⟨false, true, rfl⟩

theorem base_of_root? {base exponent value : Expr} {degree : Number}
    (h : root? (.pow base exponent) = some (value, degree)) : value = base := by
  unfold root? at h
  split at h
  · rename_i heq
    cases heq
    simp only [Option.bind_eq_bind, Option.bind_eq_some_iff, Option.pure_def, Option.some.injEq,
      Prod.mk.injEq] at h
    obtain ⟨_, _, _, _, rfl, _⟩ := h
    rfl
  · cases h

/-! Each kind of node is spaced if everything lighter is. What a node shows is not always one of its parts: a
fraction shows products of them, and a sum shows terms without their sign. -/

section

variable {e : Expr}

/-- Whatever is lighter than an expression is spaced, if no name in it has an opening brace. -/
def SpacedBelow (e : Expr) : Prop :=
  ∀ part : Expr, part.Everywhere UnbracedNames → part.weight < e.weight →
    ∀ group, Spaced (latexText group part)

theorem SpacedBelow.part (hbelow : SpacedBelow e) (h : e.Everywhere UnbracedNames) {child : Expr}
    (hmem : child ∈ e.children) (group : Bool) : Spaced (latexText group child) :=
  hbelow child (h.parts child hmem) (Expr.weight_part hmem) group

theorem SpacedBelow.parts (hbelow : SpacedBelow e) (h : e.Everywhere UnbracedNames) {es : List Expr}
    (hsubset : es ⊆ e.children) : ∀ text ∈ es.map (latexText false), Spaced text :=
  List.forall_mem_map.2 fun _ hmem => hbelow.part h (hsubset hmem) false

theorem spaced_sumText {terms : List Expr} (hbelow : SpacedBelow (.sum terms))
    (h : (Expr.sum terms).Everywhere UnbracedNames) (group : Bool) :
    Spaced (latexText group (.sum terms)) := by
  rw [latexText_sum]
  refine spaced_grouped (spaced_joinSigned (List.forall_mem_map.2 fun term hterm => ?_)) _
  have hevery := everywhere_allTerms terms h.terms term hterm
  have hless : term.weight < (Expr.sum terms).weight := by
    have hle := weight_allTerms terms term hterm
    rw [Expr.weight_sum]
    omega
  refine spaced_signed (hbelow term hevery hless false) fun magnitude hmagnitude => ?_
  exact hbelow magnitude (everywhere_unsigned? hevery hmagnitude)
    ((weight_unsigned? hmagnitude).trans_lt hless) false

theorem spaced_root {text : String} (degree : Number) (h : Spaced text) :
    Spaced ("\\sqrt" ++ (if degree == (2 : Number) then "" else "[" ++ latexNumber degree ++ "]") ++
      braced text) := by
  have hsign : Spaced "\\sqrt" := .of_unbraced (by decide)
  have hdegree : Spaced (if degree == (2 : Number) then "" else "[" ++ latexNumber degree ++ "]") := by
    split
    · exact .of_unbraced (by decide)
    · exact (Spaced.append (.of_unbraced (by decide)) (spaced_latexNumber degree)).append
        (.of_unbraced (by decide))
  exact (hsign.append hdegree).braced (solid_append (by decide) _) h

/-- A power is a fraction with a power of its base under the bar, a root of its base, or its base and its
exponent with a caret between them. -/
theorem spaced_powText {base exponent : Expr} (hbelow : SpacedBelow (.pow base exponent))
    (h : (Expr.pow base exponent).Everywhere UnbracedNames) (group : Bool) :
    Spaced (latexText group (.pow base exponent)) := by
  have hbase (group : Bool) : Spaced (latexText group base) := hbelow.part h (.head _) group
  have hexponent (group : Bool) : Spaced (latexText group exponent) :=
    hbelow.part h (.tail _ (.head _)) group
  have heq := (latexText_eq group (.pow base exponent)).symm
  rw [latexNode] at heq
  split at heq
  · rename_i magnitude hnegative
    have hpower : (Expr.buildPow base (.num magnitude)).Everywhere UnbracedNames :=
      Expr.everywhere_buildPow trivial trivial (h.parts base (.head _)) (.num trivial)
    rw [← Option.some.inj heq]
    exact spaced_grouped (spaced_frac (.of_unbraced (by decide))
      (hbelow _ hpower (weight_buildPow_lt hnegative) false)) group
  · split at heq
    · rename_i value degree hroot
      obtain rfl := base_of_root? hroot
      rw [← Option.some.inj heq]
      exact spaced_root degree (hbase false)
    · obtain ⟨group', group'', hlatex⟩ := latexBase_eq base
      rw [hlatex] at heq
      rw [← Option.some.inj heq]
      exact (spaced_grouped (hbase group'') group').append
        (spaced_script (by decide) (by decide) (hexponent false))

/-- A product is its factors next to each other, or a fraction of two products of its factors. -/
theorem spaced_prodText {factors : List Expr} (hbelow : SpacedBelow (.prod factors))
    (h : (Expr.prod factors).Everywhere UnbracedNames) (group : Bool) :
    Spaced (latexText group (.prod factors)) := by
  have heq := (latexText_eq group (.prod factors)).symm
  rw [latexNode] at heq
  split at heq
  · exact spaced_product (fun factor hfactor => hbelow.part h hfactor true) heq
  · rename_i hunder
    rw [Bool.not_eq_true] at hunder
    have hnumerator : ∀ f ∈ numerator factors, f.Everywhere UnbracedNames := fun f hf =>
      h.factors f (List.mem_of_mem_filter hf)
    have hdenominator : ∀ f ∈ denominator factors, f.Everywhere UnbracedNames := fun f hf => by
      obtain ⟨factor, hfactor, hbar⟩ := List.mem_filterMap.1 hf
      exact everywhere_underBar? (h.factors factor hfactor) hbar
    obtain ⟨habove, hunder⟩ := weight_fraction hunder
    rw [← Option.some.inj heq]
    exact spaced_grouped (spaced_frac (hbelow _ (everywhere_buildProd hnumerator) habove false)
      (hbelow _ (everywhere_buildProd hdenominator) hunder false)) group

theorem spaced_callText {f : Signature} {functional subscript superscript : List Expr}
    (hbelow : SpacedBelow (.call f functional subscript superscript))
    (h : (Expr.call f functional subscript superscript).Everywhere UnbracedNames) (group : Bool) :
    Spaced (latexText group (.call f functional subscript superscript)) := by
  have heq := (latexText_eq group (.call f functional subscript superscript)).symm
  rw [latexNode, mapM_texts, mapM_texts, mapM_texts] at heq
  rw [← Option.some.inj heq]
  have hname : Spaced ("\\" ++ f.name) := Spaced.append (.of_unbraced (by decide)) (.of_unbraced h.here)
  refine ((hname.append (spaced_scriptList (by decide) (by decide) (hbelow.parts h ?_))).append
    (spaced_scriptList (by decide) (by decide) (hbelow.parts h ?_))).braced
      (solid_append (solid_append (solid_append (by decide) _) _) _)
      (spaced_intercalate (by decide) (hbelow.parts h ?_))
  all_goals simp [Expr.children]

/-- An integral is its sign, with bounds or without, and what is integrated between blanks. -/
theorem spaced_integralText {body : Expr} {var : String} {lower upper : Option Expr}
    (hbelow : SpacedBelow (.integral body var lower upper))
    (h : (Expr.integral body var lower upper).Everywhere UnbracedNames) (group : Bool) :
    Spaced (latexText group (.integral body var lower upper)) := by
  have hrest {sign : String} (hsign : Spaced sign) : Spaced (grouped group
      (sign ++ " " ++ latexText false body ++ " \\, d" ++ var)) :=
    spaced_grouped ((((hsign.append (.of_unbraced (by decide))).append
      (hbelow.part h (.head _) false)).append (.of_unbraced (by decide))).append (.of_unbraced h.here)) group
  have heq := (latexText_eq group (.integral body var lower upper)).symm
  rw [latexNode] at heq
  rcases lower with _ | a
  · rw [← Option.some.inj heq]
    exact hrest (.of_unbraced (by decide))
  · rcases upper with _ | b
    · rw [← Option.some.inj heq]
      exact hrest (.of_unbraced (by decide))
    · rw [← Option.some.inj heq]
      have hsign : Spaced "\\int_" := .of_unbraced (by decide)
      have hlower := hbelow.part h (show a ∈ _ by simp [Expr.children]) false
      have hupper := hbelow.part h (show b ∈ _ by simp [Expr.children]) false
      exact hrest (((hsign.braced (by decide) hlower).append (.of_unbraced (by decide))).braced
        (solid_append (solid_append (by decide) _) _) hupper)

end

/-- Where no name has an opening brace, no two opening braces stand next to each other in LaTeX, and none
stands at the start. -/
theorem spaced_latexText {e : Expr} (h : e.Everywhere UnbracedNames) (group : Bool) :
    Spaced (latexText group e) := by
  induction hweight : e.weight using Nat.strong_induction_on generalizing e group with
  | _ weight ih =>
  subst hweight
  have hbelow : SpacedBelow e := fun part hpart hless group => ih _ hless hpart group rfl
  have heq := (latexText_eq group e).symm
  cases e with
  | num n =>
    rw [← Option.some.inj heq]
    exact spaced_latexNumber n
  | sym name =>
    rw [← Option.some.inj heq]
    exact .of_unbraced h.here
  | sum terms => exact spaced_sumText hbelow h group
  | pow base exponent => exact spaced_powText hbelow h group
  | prod factors => exact spaced_prodText hbelow h group
  | call f functional subscript superscript => exact spaced_callText hbelow h group
  | deriv body vars =>
    rw [← Option.some.inj heq]
    exact spaced_grouped ((spaced_derivOperator h.here).append (hbelow.part h (.head _) true)) group
  | integral body var lower upper => exact spaced_integralText hbelow h group

theorem spaced_latex {e : Expr} (h : e.Everywhere UnbracedNames) : Spaced e.latex :=
  spaced_latexText h false

end Render

end Workings
