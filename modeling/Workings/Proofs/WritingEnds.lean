import Workings.Proofs.Rendering

/-!
# Writing comes to an end

To write an expression, other expressions have to be written first, and some of them are no parts of it
(`Render.Rebuilt`): the power with its exponent negated, the products above and below a fraction bar, the
magnitude of a term. A node *asks* for an expression if it has no text without one for that expression
(`Render.Asks`). All that is asked for is lighter (`Render.Descends.weight_lt`), so asking is well-founded, and
the equations by which nodes are written have exactly one solution, which every sufficient depth gives
(`Render.writing_ends`).
-/

namespace Workings

namespace Render

/-- The text of `part` is needed to write `e`: there may be no text of `e` when only that of `part` is
missing. -/
def Asks (node : Writer → Writer) (e part : Expr) : Prop :=
  ∃ (w : Writer) (group : Bool),
    (∀ group' other, other ≠ part → (w group' other).isSome = true) ∧ node w group e = none

/-- The nodes that are built anew in order to write an expression. -/
inductive Rebuilt : Expr → Expr → Prop
  | power {base exponent : Expr} {n : Number} (h : negativeExponent? exponent = some n) :
    Rebuilt (.pow base exponent) (Expr.buildPow base (.num n))
  | above {factors : List Expr} (h : (denominator factors).isEmpty = false) :
    Rebuilt (.prod factors) (Expr.buildProd (numerator factors))
  | below {factors : List Expr} (h : (denominator factors).isEmpty = false) :
    Rebuilt (.prod factors) (Expr.buildProd (denominator factors))
  | magnitude {terms : List Expr} {term magnitude : Expr} (hterm : term ∈ allTerms terms)
    (h : unsigned? term = some magnitude) : Rebuilt (.sum terms) magnitude

section

variable {node : Writer → Writer} {form : ℕ → Writer} {text : Bool → Expr → String} {e part : Expr}

/-! ### What is asked for -/

/-- All that is asked for is lighter. -/
theorem Descends.weight_lt (h : Descends node) (hasks : Asks node e part) : part.weight < e.weight := by
  obtain ⟨w, group, hsome, hnone⟩ := hasks
  by_contra hheavy
  have hbelow : AgreeBelow w w e := by
    intro group' other hlight
    have hother : other ≠ part := by
      rintro rfl
      exact hheavy hlight
    obtain ⟨text, htext⟩ := Option.isSome_iff_exists.1 (hsome group' other hother)
    exact ⟨text, htext, htext⟩
  obtain ⟨text, htext, -⟩ := h w w group e hbelow
  rw [hnone] at htext
  cases htext

theorem Descends.wellFounded (h : Descends node) : WellFounded fun part e => Asks node e part :=
  Subrelation.wf (fun hasks => h.weight_lt hasks) (measure Expr.weight).wf

open Classical in
/-- Every expression but one has an empty text. -/
noncomputable def allBut (part : Expr) : Writer := fun _ other =>
  if other = part then none else some ""

theorem allBut_self (group : Bool) (part : Expr) : allBut part group part = none :=
  if_pos rfl

theorem asks_of_allBut (group : Bool) (h : node (allBut part) group e = none) : Asks node e part := by
  refine ⟨allBut part, group, fun group' other hother => ?_, h⟩
  rw [allBut, if_neg hother]
  rfl

theorem mapM_eq_none {α β : Type} {f : α → Option β} {items : List α} {item : α} (hitem : item ∈ items)
    (h : f item = none) : items.mapM f = none := by
  induction items with
  | nil => cases hitem
  | cons first rest ih =>
    rw [List.mapM_cons]
    rcases List.mem_cons.1 hitem with rfl | hrest
    · rw [h]
      rfl
    · rw [ih hrest]
      cases f first <;> rfl

/-- A sum whose terms have empty texts is written only if the magnitudes of its terms have texts. -/
theorem signedSum_allBut {terms : List Expr} {term magnitude : Expr} (hterm : term ∈ allTerms terms)
    (h : unsigned? term = some magnitude) : signedSum (allBut magnitude false) terms = none := by
  have hsigned : signedTerm (allBut magnitude false) term = none := by
    unfold signedTerm
    by_cases hsame : term = magnitude
    · rw [hsame, allBut_self]
      rfl
    · have htext : allBut magnitude false term = some "" := if_neg hsame
      have hminus : startsWithMinus "" = false := by decide
      rw [htext, h]
      simp only [Option.bind_eq_bind, Option.bind_some, hminus, Bool.false_eq_true, if_false, allBut_self,
        Option.bind_none]
  unfold signedSum
  extract_lets flat
  rw [mapM_eq_none hterm hsigned]
  rfl

/-- The nodes that are built anew are asked for in LaTeX. -/
theorem latexNode_asks (h : Rebuilt e part) : Asks latexNode e part := by
  refine asks_of_allBut false ?_
  cases h with
  | power hnegative =>
    rw [latexNode, hnegative]
    dsimp only
    rw [allBut_self]
    rfl
  | above hbelow =>
    rw [latexNode, hbelow, if_neg Bool.false_ne_true, allBut_self]
    rfl
  | below hbelow =>
    rw [latexNode, hbelow, if_neg Bool.false_ne_true]
    refine Option.bind_eq_none_iff.2 fun _ _ => ?_
    rw [allBut_self]
    rfl
  | magnitude hterm hunsigned =>
    rw [latexNode, signedSum_allBut hterm hunsigned]
    rfl

/-- And so they are in plain text. -/
theorem plainNode_asks (h : Rebuilt e part) : Asks plainNode e part := by
  refine asks_of_allBut false ?_
  cases h with
  | power hnegative =>
    rw [plainNode, hnegative]
    dsimp only
    rw [allBut_self]
    rfl
  | above hbelow =>
    rw [plainNode, hbelow, if_neg Bool.false_ne_true, allBut_self]
    rfl
  | below hbelow =>
    rw [plainNode, hbelow, if_neg Bool.false_ne_true]
    refine Option.bind_eq_none_iff.2 fun _ _ => ?_
    rw [allBut_self]
    rfl
  | magnitude hterm hunsigned =>
    rw [plainNode, signedSum_allBut hterm hunsigned]
    rfl

/-! ### The texts -/

/-- From the weight of an expression on, the depth does not matter. -/
theorem Descends.form_eq (h : Descends node) (hform : ∀ depth, form (depth + 1) = node (form depth))
    (htext : ∀ group e, text group e = (form e.weight group e).getD "") (group : Bool) {e : Expr} {depth : ℕ}
    (hdepth : e.weight ≤ depth) : form depth group e = some (text group e) := by
  obtain ⟨result, hresult, hself⟩ := h.agree hform group hdepth le_rfl
  rw [hresult, htext, hself]
  rfl

/-- No other texts solve the equations by which nodes are written. -/
theorem Descends.text_unique (h : Descends node)
    (htext : ∀ group e, some (text group e) = node (fun group part => some (text group part)) group e)
    {other : Bool → Expr → String}
    (hother : ∀ group e, some (other group e) = node (fun group part => some (other group part)) group e) :
    other = text := by
  suffices hsame : ∀ e group, other group e = text group e from
    funext fun group => funext fun e => hsame e group
  intro e
  induction e using (measure Expr.weight).wf.induction with
  | _ e ih =>
    intro group
    refine Option.some.inj ?_
    rw [hother, htext]
    refine (h _ _ group e fun group' part hlight => ?_).eq
    rw [ih part hlight group']
    exact .pure _

end

/-- Writing node by node comes to an end, with the given texts. -/
structure Ends (node : Writer → Writer) (form : ℕ → Writer) (text : Bool → Expr → String) : Prop where
  /-- Nothing is asked for without end. -/
  wellFounded : WellFounded fun part e => Asks node e part
  /-- What is asked for need not be a part of the expression. -/
  rebuilt : ∀ e part, Rebuilt e part → Asks node e part
  /-- Every depth that suffices gives the text. -/
  form_eq : ∀ group e depth, e.weight ≤ depth → form depth group e = some (text group e)
  /-- Every node is written with the texts of what it asks for. -/
  text_eq : ∀ group e, some (text group e) = node (fun group part => some (text group part)) group e
  /-- There are no other texts of that kind. -/
  unique : ∀ other : Bool → Expr → String,
    (∀ group e, some (other group e) = node (fun group part => some (other group part)) group e) →
      other = text

theorem Descends.ends {node : Writer → Writer} {form : ℕ → Writer} {text : Bool → Expr → String}
    (h : Descends node) (hrebuilt : ∀ e part, Rebuilt e part → Asks node e part)
    (hform : ∀ depth, form (depth + 1) = node (form depth))
    (htext : ∀ group e, text group e = (form e.weight group e).getD "") : Ends node form text where
  wellFounded := h.wellFounded
  rebuilt := hrebuilt
  form_eq group _ _ hdepth := h.form_eq hform htext group hdepth
  text_eq := h.text_eq hform htext
  unique _ hother := h.text_unique (h.text_eq hform htext) hother

/-- Both ways of writing come to an end on every expression, although they write nodes that are no parts of
it, and the LaTeX form and the plain form of an expression are the texts they end with. -/
theorem writing_ends :
    Ends latexNode latexAt latexText ∧ Ends plainNode plainAt plainText ∧
      ∀ e : Expr, e.latex = latexText false e ∧ e.plain = plainText false e :=
  ⟨descends_latexNode.ends (fun _ _ => latexNode_asks) (fun _ => rfl) fun _ _ => rfl,
    descends_plainNode.ends (fun _ _ => plainNode_asks) (fun _ => rfl) fun _ _ => rfl,
    fun _ => ⟨rfl, rfl⟩⟩

end Render

end Workings
