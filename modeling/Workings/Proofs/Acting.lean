import Workings.Expr.Occurrence

/-!
# What a replacement does at a node

Something takes the place of a node if the node is the target or its negation, if the target is part of it,
or if it is `-1` times the negated target. `Replacement.Acts r e e'` lists what that is, case by case, and
`Replacement.acts_apply` says that there are no other cases. Anywhere else the replacement goes on in the
parts of the node (`Replacement.children_apply`).

Whatever is said of an expression in which something is replaced follows from these two by induction on
the expression. Only `Replacement.apply_eq` opens `Replacement.apply`.
-/

namespace Workings

/-- What is left of a product without the factors of a target, which is a product too. -/
theorem Target.exists_of_productRest? {factors rest : List Expr} {target : Expr} {negative : Bool}
    (h : productRest? factors target = some (rest, negative)) :
    ∃ wanted, target = .prod wanted ∧
      leftover? (plainFactors factors) (plainFactors wanted) = some rest ∧
      negative = (isNegative factors != isNegative wanted) := by
  unfold productRest? at h
  split at h
  · rename_i wanted
    obtain ⟨rest', hrest, h⟩ := Option.bind_eq_some_iff.1 h
    dsimp only at h
    split at h
    · cases h
    · cases h
      exact ⟨wanted, rfl, hrest, rfl⟩
  · cases h

/-- What is left of a sum without the terms of a target, which is a sum too. -/
theorem Target.exists_of_sumRest? {terms rest : List Expr} {target : Expr}
    (h : sumRest? terms target = some rest) :
    ∃ wanted, target = .sum wanted ∧ leftover? (plainTerms terms) (plainTerms wanted) = some rest := by
  unfold sumRest? at h
  split at h
  · exact ⟨_, rfl, h⟩
  · cases h

namespace Replacement

variable {r : Replacement} {e e' : Expr}

theorem applyAll_eq_map (r : Replacement) (es : List Expr) : r.applyAll es = es.map r.apply := by
  induction es with
  | nil => rfl
  | cons e es ih => exact congrArg (r.apply e :: ·) ih

theorem applyOption_eq_map (r : Replacement) (e : Option Expr) : r.applyOption e = e.map r.apply := by
  cases e <;> rfl

/-- What becomes of a node if nothing takes the place of the whole of it. -/
def inside (r : Replacement) : Expr → Expr
  | .num n => .num n
  | .sym name => .sym name
  | .sum terms => (r.partOfSum? terms).getD (.sum (terms.map r.apply))
  | .prod factors => (r.partOfProduct? factors).getD
      (if r.isNegatedPair factors then r.value else .prod (factors.map r.apply))
  | .pow base exponent => .pow (r.apply base) (r.apply exponent)
  | .call f functional subscript superscript =>
    .call f (functional.map r.apply) (subscript.map r.apply) (superscript.map r.apply)
  | .deriv body vars => .deriv (r.apply body) (vars.map fun (name, order) => (r.rename name, order))
  | .integral body var lower upper =>
    .integral (r.apply body) (r.rename var) (lower.map r.apply) (upper.map r.apply)

theorem apply_eq (r : Replacement) (e : Expr) : r.apply e = (r.whole? e).getD (r.inside e) := by
  cases e <;> simp only [apply, inside, applyAll_eq_map, applyOption_eq_map]

/-- Whether something takes the place of the node itself, rather than of something below it. -/
def actsAt (r : Replacement) (e : Expr) : Bool :=
  r.target.isWhole e || match e with
    | .sum terms => (r.partOfSum? terms).isSome
    | .prod factors => (r.partOfProduct? factors).isSome || r.isNegatedPair factors
    | _ => false

/-- What takes the place of a node. -/
inductive Acts (r : Replacement) : Expr → Expr → Prop
  | literal {e : Expr} (h : (e == r.target.literal) = true) : Acts r e r.value
  | negated {e : Expr} (hnot : (e == r.target.literal) = false)
      (h : (e == r.target.negated) = true) : Acts r e r.negated
  | product {factors rest : List Expr} {negative : Bool}
      (h : Target.productRest? factors r.target.literal = some (rest, negative)) :
      Acts r (.prod factors) (Expr.unwrap .prod
        (asFactors r.value ++ rest ++ if negative then [Expr.minusOne] else []))
  | sum {terms rest : List Expr} (h : Target.sumRest? terms r.target.literal = some rest) :
      Acts r (.sum terms) (Expr.unwrap .sum (asTerms r.value ++ rest))
  | pair {factors : List Expr} (h : r.isNegatedPair factors = true) : Acts r (.prod factors) r.value

/-! ### At a node -/

theorem whole?_eq_none_of_isWhole (h : r.target.isWhole e = false) : r.whole? e = none := by
  obtain ⟨hliteral, hnegated⟩ := Bool.or_eq_false_iff.1 h
  rw [whole?, hliteral, hnegated]
  rfl

theorem acts_of_whole? (h : r.whole? e = some e') : r.Acts e e' := by
  unfold whole? at h
  split at h
  · rename_i hliteral
    cases h
    exact .literal hliteral
  · rename_i hnot
    split at h
    · rename_i hnegated
      cases h
      exact .negated (Bool.eq_false_iff.2 hnot) hnegated
    · cases h

theorem acts_of_partOfProduct? {factors : List Expr} (h : r.partOfProduct? factors = some e') :
    r.Acts (.prod factors) e' := by
  unfold partOfProduct? at h
  split at h
  · obtain ⟨⟨rest, negative⟩, hrest, rfl⟩ := Option.map_eq_some_iff.1 h
    exact .product hrest
  · cases h

theorem acts_of_partOfSum? {terms : List Expr} (h : r.partOfSum? terms = some e') :
    r.Acts (.sum terms) e' := by
  unfold partOfSum? at h
  split at h
  · obtain ⟨rest, hrest, rfl⟩ := Option.map_eq_some_iff.1 h
    exact .sum hrest
  · cases h

theorem apply_of_whole? (h : r.whole? e = some e') : r.apply e = e' := by
  rw [apply_eq, h, Option.getD_some]

theorem apply_eq_inside (h : r.target.isWhole e = false) : r.apply e = r.inside e := by
  rw [apply_eq, whole?_eq_none_of_isWhole h, Option.getD_none]

theorem apply_of_partOfProduct? {factors : List Expr} (hwhole : r.target.isWhole (.prod factors) = false)
    (h : r.partOfProduct? factors = some e') : r.apply (.prod factors) = e' := by
  rw [apply_eq_inside hwhole, inside, h, Option.getD_some]

theorem apply_of_partOfSum? {terms : List Expr} (hwhole : r.target.isWhole (.sum terms) = false)
    (h : r.partOfSum? terms = some e') : r.apply (.sum terms) = e' := by
  rw [apply_eq_inside hwhole, inside, h, Option.getD_some]

theorem isWhole_of_whole?_eq_none (h : r.whole? e = none) : r.target.isWhole e = false := by
  unfold whole? at h
  split at h
  · cases h
  · rename_i hliteral
    split at h
    · cases h
    · rename_i hnegated
      exact Bool.or_eq_false_iff.2 ⟨Bool.eq_false_iff.2 hliteral, Bool.eq_false_iff.2 hnegated⟩

/-- If something takes the place of a node, it is one of the things listed. -/
theorem acts_apply (h : r.actsAt e = true) : r.Acts e (r.apply e) := by
  cases hwhole : r.whole? e with
  | some e' =>
    rw [apply_of_whole? hwhole]
    exact acts_of_whole? hwhole
  | none =>
    have hnot := isWhole_of_whole?_eq_none hwhole
    unfold actsAt at h
    rw [hnot, Bool.false_or] at h
    cases e with
    | num _ | sym _ | pow _ _ | call _ _ _ _ | deriv _ _ | integral _ _ _ _ => cases h
    | sum terms =>
      obtain ⟨e', hpart⟩ := Option.isSome_iff_exists.1 h
      rw [apply_of_partOfSum? hnot hpart]
      exact acts_of_partOfSum? hpart
    | prod factors =>
      cases hpart : r.partOfProduct? factors with
      | some e' =>
        rw [apply_of_partOfProduct? hnot hpart]
        exact acts_of_partOfProduct? hpart
      | none =>
        have hpair := (Bool.or_eq_true_iff.1 h).resolve_left (by simp [hpart])
        rw [apply_eq_inside hnot, inside, hpart, Option.getD_none, if_pos hpair]
        exact .pair hpair

/-! ### Below a node -/

theorem isWhole_of_actsAt (h : r.actsAt e = false) : r.target.isWhole e = false :=
  (Bool.or_eq_false_iff.1 h).1

theorem apply_num {n : Number} (h : r.actsAt (.num n) = false) : r.apply (.num n) = .num n :=
  apply_eq_inside (isWhole_of_actsAt h)

theorem apply_sym {name : String} (h : r.actsAt (.sym name) = false) :
    r.apply (.sym name) = .sym name :=
  apply_eq_inside (isWhole_of_actsAt h)

theorem apply_sum {terms : List Expr} (h : r.actsAt (.sum terms) = false) :
    r.apply (.sum terms) = .sum (terms.map r.apply) := by
  have hpart := Option.isSome_eq_false_iff.1 (Bool.or_eq_false_iff.1 h).2
  rw [apply_eq_inside (isWhole_of_actsAt h), inside, Option.isNone_iff_eq_none.1 hpart, Option.getD_none]

theorem apply_prod {factors : List Expr} (h : r.actsAt (.prod factors) = false) :
    r.apply (.prod factors) = .prod (factors.map r.apply) := by
  obtain ⟨hpart, hpair⟩ := Bool.or_eq_false_iff.1 (Bool.or_eq_false_iff.1 h).2
  rw [apply_eq_inside (isWhole_of_actsAt h), inside,
    Option.isNone_iff_eq_none.1 (Option.isSome_eq_false_iff.1 hpart), Option.getD_none, hpair,
    if_neg Bool.false_ne_true]

theorem apply_pow {base exponent : Expr} (h : r.actsAt (.pow base exponent) = false) :
    r.apply (.pow base exponent) = .pow (r.apply base) (r.apply exponent) :=
  apply_eq_inside (isWhole_of_actsAt h)

theorem apply_call {f : Signature} {functional subscript superscript : List Expr}
    (h : r.actsAt (.call f functional subscript superscript) = false) :
    r.apply (.call f functional subscript superscript) =
      .call f (functional.map r.apply) (subscript.map r.apply) (superscript.map r.apply) :=
  apply_eq_inside (isWhole_of_actsAt h)

theorem apply_deriv {body : Expr} {vars : List (String × Nat)}
    (h : r.actsAt (.deriv body vars) = false) :
    r.apply (.deriv body vars) =
      .deriv (r.apply body) (vars.map fun (name, order) => (r.rename name, order)) :=
  apply_eq_inside (isWhole_of_actsAt h)

theorem apply_integral {body : Expr} {var : String} {lower upper : Option Expr}
    (h : r.actsAt (.integral body var lower upper) = false) :
    r.apply (.integral body var lower upper) =
      .integral (r.apply body) (r.rename var) (lower.map r.apply) (upper.map r.apply) :=
  apply_eq_inside (isWhole_of_actsAt h)

/-- Unless something takes the place of a node, the replacement goes on in its children. -/
theorem children_apply (h : r.actsAt e = false) :
    (r.apply e).children = e.children.map r.apply := by
  cases e with
  | num n =>
    rw [apply_num h]
    rfl
  | sym name =>
    rw [apply_sym h]
    rfl
  | sum terms =>
    rw [apply_sum h]
    rfl
  | prod factors =>
    rw [apply_prod h]
    rfl
  | pow base exponent =>
    rw [apply_pow h]
    rfl
  | call f functional subscript superscript =>
    rw [apply_call h]
    simp only [Expr.children, List.map_append]
  | deriv body vars =>
    rw [apply_deriv h]
    rfl
  | integral body var lower upper =>
    rw [apply_integral h]
    cases lower <;> cases upper <;> rfl

end Replacement

end Workings
