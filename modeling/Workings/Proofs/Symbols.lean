import Workings.Bindings
import Workings.Expr.Symbols
import Workings.Proofs.Meaning

/-!
# Parts of an expression and the symbols in it

Induction over the parts of an expression (`Expr.induction_on_parts`), and what the parts of an expression
without calculus have of it: they are without calculus (`Expr.hasCalculus_of_mem_children`), and mention
no other symbols (`Expr.mentions_of_mem_children`).
-/

namespace Workings

namespace Expr

/-! ### Parts are smaller -/

theorem sizeOf_lt_of_mem_children {e part : Expr} (h : part ∈ e.children) :
    sizeOf part < sizeOf e := by
  cases e with
  | num _ | sym _ => cases h
  | sum terms =>
    have := List.sizeOf_lt_of_mem h
    simp only [sum.sizeOf_spec]
    simp only [children] at this
    omega
  | prod factors =>
    have := List.sizeOf_lt_of_mem h
    simp only [prod.sizeOf_spec]
    simp only [children] at this
    omega
  | pow base exponent =>
    simp only [pow.sizeOf_spec]
    rcases List.mem_pair.1 h with rfl | rfl <;> omega
  | call f functional subscript superscript =>
    simp only [call.sizeOf_spec]
    simp only [children, List.mem_append] at h
    rcases h with (h | h) | h <;> have := List.sizeOf_lt_of_mem h <;> omega
  | deriv body vars =>
    simp only [deriv.sizeOf_spec]
    rw [List.mem_singleton.1 h]
    omega
  | integral body var lower upper =>
    simp only [integral.sizeOf_spec]
    simp only [children, List.mem_cons, List.mem_append, Option.mem_toList] at h
    rcases h with rfl | h | h
    · omega
    · rw [Option.mem_def.1 h, Option.some.sizeOf_spec]
      omega
    · rw [Option.mem_def.1 h, Option.some.sizeOf_spec]
      omega

/-- What holds of every expression holds of every node. -/
theorem everywhere_of_forall {p : Expr → Prop} (h : ∀ e, p e) (e : Expr) : e.Everywhere p :=
  .intro (h e) fun part _ => everywhere_of_forall h part
termination_by sizeOf e
decreasing_by exact sizeOf_lt_of_mem_children ‹_›

/-- Induction over the parts of an expression. -/
theorem induction_on_parts {p : Expr → Prop} (h : ∀ e, (∀ part ∈ e.children, p part) → p e)
    (e : Expr) : p e := by
  have hall : e.Everywhere fun _ => True := everywhere_of_forall (fun _ => trivial) e
  induction hall with
  | @intro e _ _ ih => exact h e ih

/-! ### Expressions without calculus -/

theorem anyCalculus_eq_false_iff {es : List Expr} :
    anyCalculus es = false ↔ ∀ e ∈ es, e.hasCalculus = false := by
  induction es with
  | nil => exact ⟨fun _ _ he => (nomatch he), fun _ => rfl⟩
  | cons e es ih => rw [anyCalculus, Bool.or_eq_false_iff, ih, List.forall_mem_cons]

theorem anyCalculus_eq_any (es : List Expr) : anyCalculus es = es.any hasCalculus := by
  induction es with
  | nil => rfl
  | cons e es ih => rw [anyCalculus, ih, List.any_cons]

/-- Whether a node is a derivative or an integral. -/
def isCalculus : Expr → Bool
  | .deriv _ _ | .integral _ _ _ _ => true
  | _ => false

/-- Calculus is in a part, or in the node itself. -/
theorem hasCalculus_eq (e : Expr) : e.hasCalculus = (e.children.any hasCalculus || e.isCalculus) := by
  cases e <;> simp [hasCalculus, children, isCalculus, anyCalculus_eq_any, Bool.or_assoc]

/-- Where no node is a derivative or an integral there is no calculus. -/
theorem hasCalculus_of_everywhere {p : Expr → Prop} (hp : ∀ e, p e → e.isCalculus = false) {e : Expr}
    (he : e.Everywhere p) : e.hasCalculus = false := by
  induction he with
  | @intro e here _ ih =>
    rw [hasCalculus_eq, hp e here, Bool.or_false, List.any_eq_false]
    exact fun part hpart => Bool.eq_false_iff.1 (ih part hpart)

theorem hasCalculus_of_mem_children {e part : Expr} (he : e.hasCalculus = false)
    (h : part ∈ e.children) : part.hasCalculus = false := by
  rw [hasCalculus_eq, Bool.or_eq_false_iff] at he
  exact Bool.eq_false_iff.2 (List.any_eq_false.1 he.1 part h)

theorem anyMentions_eq_false_iff {x : String} {es : List Expr} :
    anyMentions x es = false ↔ ∀ e ∈ es, e.mentions x = false := by
  induction es with
  | nil => exact ⟨fun _ _ he => (nomatch he), fun _ => rfl⟩
  | cons e es ih => rw [anyMentions, Bool.or_eq_false_iff, ih, List.forall_mem_cons]

theorem mentions_of_mem_children {x : String} {e part : Expr} (hcalculus : e.hasCalculus = false)
    (he : e.mentions x = false) (h : part ∈ e.children) : part.mentions x = false := by
  cases e with
  | num _ | sym _ => cases h
  | sum terms => exact anyMentions_eq_false_iff.1 he part h
  | prod factors => exact anyMentions_eq_false_iff.1 he part h
  | pow base exponent =>
    rw [mentions, Bool.or_eq_false_iff] at he
    rcases List.mem_pair.1 h with rfl | rfl
    · exact he.1
    · exact he.2
  | call f functional subscript superscript =>
    rw [mentions, Bool.or_eq_false_iff, Bool.or_eq_false_iff] at he
    simp only [children, List.mem_append] at h
    rcases h with (h | h) | h
    · exact anyMentions_eq_false_iff.1 he.1.1 part h
    · exact anyMentions_eq_false_iff.1 he.1.2 part h
    · exact anyMentions_eq_false_iff.1 he.2 part h
  | deriv _ _ | integral _ _ _ _ => cases hcalculus

/-! ### Values put in together -/

theorem allWithValues_eq_map (values : List (String × Expr)) (es : List Expr) :
    allWithValues values es = es.map (withValues values) := by
  induction es with
  | nil => rfl
  | cons e es ih => rw [allWithValues, ih, List.map_cons]

/-- Where no symbol is bound nothing is put in. -/
theorem withValues_nil (e : Expr) : e.withValues [] = e := by
  induction e using induction_on_parts with
  | h e ih =>
    have all {es : List Expr} (hes : ∀ part ∈ es, part ∈ e.children) : allWithValues [] es = es := by
      rw [allWithValues_eq_map, List.map_congr_left fun part hpart => ih part (hes part hpart),
        List.map_id']
    have option {bound : Option Expr} (h : ∀ part ∈ bound, part ∈ e.children) :
        optionWithValues [] bound = bound := by
      cases bound with
      | none => rfl
      | some part => exact congrArg some (ih part (h part rfl))
    cases e with
    | num _ | sym _ => rfl
    | sum terms => exact congrArg sum (all fun _ h => h)
    | prod factors => exact congrArg prod (all fun _ h => h)
    | pow base exponent =>
      rw [withValues, ih base (by simp [children]), ih exponent (by simp [children])]
    | call f functional subscript superscript =>
      rw [withValues, all (by simp +contextual [children]), all (by simp +contextual [children]),
        all (by simp +contextual [children])]
    | deriv body vars =>
      rw [withValues]
      exact congrArg (deriv · vars) (ih body (by simp [children]))
    | integral body var lower upper =>
      rw [withValues, option (by simp +contextual [children]), option (by simp +contextual [children])]
      exact congrArg (integral · var lower upper) (ih body (by simp [children]))

end Expr

end Workings
