import Workings.Proofs.Rewriting

/-!
# What is counted is what is replaced

`Expr.occurrences` counts the occurrences of a target in a tree, and `Expr.replace` puts something in
their place. They are two recursions of different shape, and they agree on what an occurrence is: where
none is counted the tree stays as it is, and where one is counted the replacement can be found in the
tree afterwards (`Expr.replace_finds_occurrences`).

What the replacement does at a node is `Replacement.actsAt`. A target that is counted in an expression
without calculus is counted at the node or in one of its parts (`Replacement.exists_part_of_count`), and
a symbol that takes its place is still there when the node has been put together again.
-/

namespace Workings

namespace Expr

/-! ### Symbols in a list of expressions -/

variable {x : String}

theorem anyMentions_iff {es : List Expr} :
    anyMentions x es = true ↔ ∃ e ∈ es, e.mentions x = true := by
  rw [← Bool.not_eq_false, anyMentions_eq_false_iff]
  simp

theorem mentions_unwrap_sum (terms : List Expr) :
    (unwrap .sum terms).mentions x = anyMentions x terms := by
  unfold unwrap
  split
  · simp [anyMentions]
  · rfl

theorem mentions_unwrap_prod (factors : List Expr) :
    (unwrap .prod factors).mentions x = anyMentions x factors := by
  unfold unwrap
  split
  · simp [anyMentions]
  · rfl

end Expr

namespace Replacement

variable {r : Replacement} {x : String}

theorem anyMentions_asTerms (e : Expr) : Expr.anyMentions x (asTerms e) = e.mentions x := by
  unfold asTerms
  split
  · rfl
  · simp [Expr.anyMentions]

theorem anyMentions_asFactors (e : Expr) : Expr.anyMentions x (asFactors e) = e.mentions x := by
  unfold asFactors
  split
  · rfl
  · simp [Expr.anyMentions]

/-! ### At a node -/

/-- A replacement that brings in a symbol, with either sign. -/
structure BringsIn (r : Replacement) (x : String) : Prop where
  value : r.value.mentions x = true
  negated : r.negated.mentions x = true

/-- Where something takes the place of a node, the symbol is in it. -/
theorem BringsIn.mentions_acts (hr : r.BringsIn x) {e e' : Expr} (h : r.Acts e e') :
    e'.mentions x = true := by
  cases h with
  | literal _ => exact hr.value
  | negated _ _ => exact hr.negated
  | product _ =>
    obtain ⟨factor, hfactor, hx⟩ :=
      Expr.anyMentions_iff.1 ((anyMentions_asFactors r.value).trans hr.value)
    rw [Expr.mentions_unwrap_prod]
    refine Expr.anyMentions_iff.2 ⟨factor, ?_, hx⟩
    exact List.mem_append_left _ (List.mem_append_left _ hfactor)
  | sum _ =>
    obtain ⟨term, hterm, hx⟩ := Expr.anyMentions_iff.1 ((anyMentions_asTerms r.value).trans hr.value)
    rw [Expr.mentions_unwrap_sum]
    exact Expr.anyMentions_iff.2 ⟨term, List.mem_append_left _ hterm, hx⟩
  | pair _ => exact hr.value

/-! ### Below a node -/

/-- What is counted in an expression without calculus, and not at the node itself, is counted in one of
its parts. -/
theorem exists_part_of_count {e : Expr} (hcalculus : e.hasCalculus = false)
    (hacts : r.actsAt e = false) (h : r.target.count e ≠ 0) :
    ∃ part ∈ e.children, r.target.count part ≠ 0 := by
  by_contra hnone
  have hzero : ∀ part ∈ e.children, r.target.count part = 0 := fun part hpart =>
    not_not.1 fun hcount => hnone ⟨part, hpart, hcount⟩
  obtain ⟨hnot, hpart⟩ := Bool.or_eq_false_iff.1 hacts
  apply h
  cases e with
  | num _ | sym _ => rw [Target.count, hnot, if_neg Bool.false_ne_true]
  | sum terms =>
    exact Target.count_sum_eq_zero_iff.2 ⟨hnot, (isSome_partOfSum? r terms).symm.trans hpart, hzero⟩
  | prod factors =>
    have hrest := (isSome_partOfProduct? r factors).symm.trans (Bool.or_eq_false_iff.1 hpart).1
    exact Target.count_prod_eq_zero_iff.2 ⟨hnot, hrest, hzero⟩
  | pow base exponent =>
    rw [Target.count, hnot, if_neg Bool.false_ne_true, hzero base (by simp [Expr.children]),
      hzero exponent (by simp [Expr.children])]
  | call f functional subscript superscript =>
    have hall {es : List Expr} (hes : ∀ part ∈ es, part ∈ Expr.children
        (.call f functional subscript superscript)) : r.target.countAll es = 0 :=
      Target.countAll_eq_zero_iff.2 fun part hmem => hzero part (hes part hmem)
    rw [Target.count, hnot, if_neg Bool.false_ne_true, hall (by simp +contextual [Expr.children]),
      hall (by simp +contextual [Expr.children]), hall (by simp +contextual [Expr.children])]
  | deriv _ _ | integral _ _ _ _ => cases hcalculus

/-- A symbol in what becomes of a part is in what becomes of the node. -/
theorem mentions_apply_of_part {e part : Expr} (hcalculus : e.hasCalculus = false)
    (hacts : r.actsAt e = false) (hpart : part ∈ e.children)
    (hx : (r.apply part).mentions x = true) : (r.apply e).mentions x = true := by
  have hany {es : List Expr} (hmem : part ∈ es) : Expr.anyMentions x (es.map r.apply) = true :=
    Expr.anyMentions_iff.2 ⟨_, List.mem_map_of_mem hmem, hx⟩
  cases e with
  | num _ | sym _ => cases hpart
  | sum terms =>
    rw [apply_sum hacts]
    exact hany hpart
  | prod factors =>
    rw [apply_prod hacts]
    exact hany hpart
  | pow base exponent =>
    rw [apply_pow hacts, Expr.mentions, Bool.or_eq_true_iff]
    rcases List.mem_pair.1 hpart with rfl | rfl
    · exact .inl hx
    · exact .inr hx
  | call f functional subscript superscript =>
    rw [apply_call hacts, Expr.mentions, Bool.or_eq_true_iff, Bool.or_eq_true_iff]
    simp only [Expr.children, List.mem_append] at hpart
    exact hpart.imp (.imp hany hany) hany
  | deriv _ _ | integral _ _ _ _ => cases hcalculus

/-- Where a target is counted, the symbol that takes its place is there afterwards. -/
theorem BringsIn.mentions_apply (hr : r.BringsIn x) {e : Expr} (hcalculus : e.hasCalculus = false)
    (h : r.target.count e ≠ 0) : (r.apply e).mentions x = true := by
  induction e using Expr.induction_on_parts with
  | h e ih =>
    cases hacts : r.actsAt e with
    | true => exact hr.mentions_acts (acts_apply hacts)
    | false =>
      obtain ⟨part, hpart, hcount⟩ := exists_part_of_count hcalculus hacts h
      have hx := ih part hpart (Expr.hasCalculus_of_mem_children hcalculus hpart) hcount
      exact mentions_apply_of_part hcalculus hacts hpart hx

end Replacement

namespace Expr

/-- Where no occurrence is counted, nothing is replaced. -/
theorem replace_of_occurrences_eq_zero {tree target : Expr} (h : tree.occurrences target = 0)
    (value : Expr) : tree.replace target value = tree :=
  Replacement.apply_of_count_eq_zero (r := Replacement.inTree tree target value) h

/-- Where an occurrence is counted, a symbol that replaces it is in the tree afterwards. -/
theorem mentions_replace_of_occurrences {tree target : Expr} (hcalculus : tree.hasCalculus = false)
    (h : 0 < tree.occurrences target) (x : String) :
    (tree.replace target (.sym x)).mentions x = true := by
  have hbrings : (Replacement.inTree tree target (.sym x)).BringsIn x :=
    ⟨by simp [Replacement.inTree, mentions],
      by simp [Replacement.inTree, neg, mentions, anyMentions]⟩
  exact hbrings.mentions_apply hcalculus h.ne'

/-- Counting and replacing agree on what an occurrence is. Where a target does not occur in a tree
nothing is replaced, whatever is to take its place. In a tree without calculus a target occurs if and
only if a symbol that is new to the tree can be found in it after it has replaced the target. -/
theorem replace_finds_occurrences (tree target : Expr) :
    (tree.occurrences target = 0 → ∀ value, tree.replace target value = tree) ∧
    (tree.hasCalculus = false → ∀ x, tree.mentions x = false →
      (0 < tree.occurrences target ↔ (tree.replace target (.sym x)).mentions x = true)) := by
  refine ⟨replace_of_occurrences_eq_zero, fun hcalculus x hx => ⟨fun h => ?_, fun h => ?_⟩⟩
  · exact mentions_replace_of_occurrences hcalculus h x
  · rw [Nat.pos_iff_ne_zero]
    intro hzero
    rw [replace_of_occurrences_eq_zero hzero, hx] at h
    cases h

/-- In `a + (-2) * x * y` the product `2 * x` occurs as part of the second term, with the opposite sign,
and a new symbol `r` is found in its place. The product `2 * z` does not occur. -/
theorem replace_finds_part :
    (Expr.sum [.sym "a", .prod [.int (-2), .sym "x", .sym "y"]]).replace (.prod [2, .sym "z"]) 7 =
      .sum [.sym "a", .prod [.int (-2), .sym "x", .sym "y"]] ∧
    ((Expr.sum [.sym "a", .prod [.int (-2), .sym "x", .sym "y"]]).replace
      (.prod [2, .sym "x"]) (.sym "r")).mentions "r" = true :=
  ⟨(replace_finds_occurrences _ _).1 (by decide +kernel) 7,
    ((replace_finds_occurrences _ _).2 rfl "r" (by decide +kernel)).1 (by decide +kernel)⟩

end Expr

end Workings
