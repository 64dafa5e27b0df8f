import Workings.Proofs.Collecting
import Workings.Proofs.Equality

/-!
# Like terms

Like terms are combined into groups, a coefficient and a variable part each. The parts of the groups are
those of the terms, without repetitions, in the order in which they appear first, less those whose
coefficients cancel. In every ring the groups add up to what the terms add up to
(`Simplify.combineLikeTerms_collects`), as long as there are no floats and no coefficient leaves the range
of a word on the way to its value.

A term either opens a group or joins the one of its variable part (`Simplify.Joined`). What is said of the
groups follows from that, one term at a time.
-/

namespace Workings

open Workings.Expr (Everywhere Unrounded)

/-- What expressions without floats stand for in a ring: integers for themselves, symbols and the other
operations for anything. -/
structure RingMeaning (R : Type*) [CommRing R] extends Meaning R where
  num_int : ∀ n : Int64, num (.int n) = (n.toInt : R)

namespace RingMeaning

variable {R : Type*} [CommRing R] (m : RingMeaning R)

theorem num_zero : m.num 0 = 0 :=
  (m.num_int 0).trans (by simp)

theorem num_one : m.num 1 = 1 :=
  (m.num_int 1).trans (by simp)

end RingMeaning

/-! ### Lists without repetitions -/

section

variable {α : Type*} [BEq α] [EquivBEq α]

/-- An element behind a list is a repetition if it equals one in the list. -/
theorem eraseDups_concat (as : List α) (a : α) :
    (as ++ [a]).eraseDups = if as.any (a == ·) then as.eraseDups else as.eraseDups ++ [a] := by
  induction h : as.length using Nat.strong_induction_on generalizing as with
  | _ n ih =>
    cases as with
    | nil => rfl
    | cons b bs =>
      have hlength : (bs.filter fun c => !c == b).length < n := by
        have := List.length_filter_le (fun c => !c == b) bs
        rw [List.length_cons] at h
        omega
      rw [List.cons_append, List.eraseDups_cons, List.eraseDups_cons, List.filter_append,
        List.any_cons]
      cases hab : a == b with
      | true => simp [hab]
      | false =>
        -- what equals `a` does not equal `b`, so it is still there once `b` has gone
        have hany : (bs.filter fun c => !c == b).any (a == ·) = bs.any (a == ·) := by
          rw [List.any_filter]
          refine congrArg bs.any (funext fun c => ?_)
          cases hac : a == c with
          | true =>
            have hcb : (c == b) = false := by
              rw [← BEq.congr_left hac, hab]
            simp [hcb]
          | false => simp
        have hlast : [a].filter (fun c => !c == b) = [a] := by simp [hab]
        rw [hlast, ih _ hlength _ rfl, hany, Bool.false_or]
        split <;> rfl

theorem mem_of_mem_eraseDups {as : List α} {a : α} (h : a ∈ as.eraseDups) : a ∈ as := by
  induction as using List.reverseRecOn with
  | nil => exact h
  | append_singleton as b ih =>
    rw [eraseDups_concat] at h
    split at h
    · exact List.mem_append_left _ (ih h)
    · rcases List.mem_append.1 h with h | h
      · exact List.mem_append_left _ (ih h)
      · exact List.mem_append_right _ h

theorem any_eraseDups (as : List α) (a : α) : as.eraseDups.any (a == ·) = as.any (a == ·) := by
  induction as using List.reverseRecOn with
  | nil => rfl
  | append_singleton as b ih =>
    rw [eraseDups_concat]
    split
    · rename_i hany
      rw [List.any_append, ih]
      cases hab : a == b with
      | true =>
        obtain ⟨c, hc, hbc⟩ := List.any_eq_true.1 hany
        rw [List.any_eq_true.2 ⟨c, hc, BEq.trans hab hbc⟩, Bool.true_or]
      | false => simp [hab]
    · rw [List.any_append, List.any_append, ih]

theorem pairwise_eraseDups (as : List α) : as.eraseDups.Pairwise fun a b => (b == a) = false := by
  induction as using List.reverseRecOn with
  | nil => exact .nil
  | append_singleton as b ih =>
    rw [eraseDups_concat]
    split
    · exact ih
    · rename_i hany
      refine List.pairwise_append.2 ⟨ih, List.pairwise_singleton _ _, fun a ha c hc => ?_⟩
      rw [List.mem_singleton.1 hc]
      exact Bool.eq_false_iff.2 fun hba => hany (List.any_eq_true.2 ⟨a, mem_of_mem_eraseDups ha, hba⟩)

end

namespace Expr

/-! ### Expressions without floats -/

theorem normalizeAll_eq_self {es : List Expr} (h : ∀ e ∈ es, e.normalize = e) :
    normalizeAll es = es := by
  induction es with
  | nil => rfl
  | cons e es ih =>
    obtain ⟨he, hes⟩ := List.forall_mem_cons.1 h
    rw [normalizeAll, he, ih hes]

theorem normalizeOption_eq_self {e : Option Expr} (h : ∀ part ∈ e, part.normalize = part) :
    normalizeOption e = e := by
  cases e with
  | none => rfl
  | some part => rw [normalizeOption, h part rfl]

theorem normalize_eq_self {e : Expr} (he : e.Everywhere Unrounded) : e.normalize = e := by
  induction he with
  | @intro e here _ ih =>
    cases e with
    | num n =>
      obtain ⟨k, rfl⟩ := here.exists_int
      rfl
    | sym name => rfl
    | sum terms => rw [normalize, show normalizeAll terms = terms from normalizeAll_eq_self ih]
    | prod factors =>
      rw [normalize, show normalizeAll factors = factors from normalizeAll_eq_self ih]
    | pow base exponent =>
      rw [normalize, ih base (by simp [children]), ih exponent (by simp [children])]
    | call f functional subscript superscript =>
      rw [normalize, normalizeAll_eq_self fun e he => ih e (by simp [children, he]),
        normalizeAll_eq_self fun e he => ih e (by simp [children, he]),
        normalizeAll_eq_self fun e he => ih e (by simp [children, he])]
    | deriv body vars => rw [normalize, ih body (by simp [children])]
    | integral body var lower upper =>
      have hbound {bound : Option Expr} (h : ∀ e ∈ bound, e ∈ children (.integral body var lower upper)) :
          normalizeOption bound = bound :=
        normalizeOption_eq_self fun e he => ih e (h e he)
      rw [normalize, ih body (by simp [children]), hbound fun e he => by simp_all [children],
        hbound fun e he => by simp_all [children]]

/-- Without floats expressions that compare equal are equal. -/
theorem beq_iff_eq_of_unrounded {a b : Expr} (ha : a.Everywhere Unrounded)
    (hb : b.Everywhere Unrounded) : (a == b) = true ↔ a = b := by
  rw [beq_iff, normalize_eq_self ha, normalize_eq_self hb]

theorem any_beq_iff_mem {a : Expr} {as : List Expr} (ha : a.Everywhere Unrounded)
    (has : ∀ b ∈ as, b.Everywhere Unrounded) : as.any (a == ·) = true ↔ a ∈ as := by
  rw [List.any_eq_true]
  refine ⟨fun ⟨b, hb, hab⟩ => ?_, fun h => ⟨a, h, beq_refl a⟩⟩
  rwa [(beq_iff_eq_of_unrounded ha (has b hb)).1 hab]

end Expr

namespace Number

/-- Multiplying integers from left to right is exact if no product on the way leaves the range of a
word. -/
theorem foldl_mul_int {ns : List Number} (hns : ∀ n ∈ ns, ∃ k : Int64, n = .int k) (total : Int64)
    (h : ∀ before, before <+: ns → InRange (total.toInt * (before.map toInt).prod)) :
    ns.foldl (· * ·) (.int total) = .int (Int64.ofInt (total.toInt * (ns.map toInt).prod)) := by
  induction ns generalizing total with
  | nil => simp
  | cons n ns ih =>
    obtain ⟨⟨k, rfl⟩, hrest⟩ := List.forall_mem_cons.1 hns
    have hstep : InRange (total.toInt * k.toInt) := by
      simpa [toInt] using h [.int k] (by simp)
    rw [List.foldl_cons, int_mul hstep, ih hrest _ fun before hbefore => ?_, toInt_ofInt hstep]
    · simp [toInt, mul_assoc]
    · have hcons := h (.int k :: before) ((List.prefix_cons_inj _).2 hbefore)
      rw [toInt_ofInt hstep, mul_assoc]
      simpa [toInt] using hcons

end Number

namespace Expr

/-! ### Coefficients and variable parts -/

/-- The numbers of which the coefficient of a term is the product. -/
def numbers : Expr → List Number
  | .num n => [n]
  | .prod factors => factors.filterMap number?
  | _ => []

/-- The coefficient of a term, worked out in the integers. -/
def exactCoefficient (term : Expr) : ℤ :=
  (term.numbers.map Number.toInt).prod

theorem exists_int_of_mem_numbers {term : Expr} (h : term.Everywhere Unrounded) :
    ∀ n ∈ term.numbers, ∃ k : Int64, n = .int k := by
  intro n hn
  cases term with
  | num k =>
    rw [List.mem_singleton.1 hn]
    exact h.here.exists_int
  | prod factors => exact (everywhere_number h.factors hn : Unrounded (.num n)).exists_int
  | sym _ | sum _ | pow _ _ | call _ _ _ _ | deriv _ _ | integral _ _ _ _ => cases hn

/-- The coefficient is exact if no product on the way leaves the range of a word. -/
theorem coefficient_eq {term : Expr} (h : term.Everywhere Unrounded)
    (hfits : ∀ before, before <+: term.numbers → InRange (before.map Number.toInt).prod) :
    term.coefficient = .int (Int64.ofInt term.exactCoefficient) := by
  cases term with
  | num n =>
    obtain ⟨k, rfl⟩ := h.here.exists_int
    simp [coefficient, exactCoefficient, numbers, Number.toInt]
  | prod factors =>
    have hone : (1 : Int64).toInt = 1 := by decide
    have hproduct := Number.foldl_mul_int (exists_int_of_mem_numbers h) 1 fun before hbefore => by
      simpa [hone] using hfits before hbefore
    rw [hone, one_mul] at hproduct
    exact hproduct
  | sym _ | sum _ | pow _ _ | call _ _ _ _ | deriv _ _ | integral _ _ _ _ => rfl

/-- The variable part of a term has no float in it and is not a number. -/
theorem variablePart_of_unrounded {term part : Expr} (h : term.Everywhere Unrounded)
    (hpart : term.variablePart? = some part) :
    part.Everywhere Unrounded ∧ part.isNumber = false := by
  cases term with
  | num n => cases hpart
  | prod factors =>
    have hfactors : ∀ f ∈ factors.filter (!·.isNumber), f.Everywhere Unrounded ∧ f.isNumber = false := by
      intro f hf
      obtain ⟨hmem, hnumber⟩ := List.mem_filter.1 hf
      exact ⟨h.factors f hmem, by simpa using hnumber⟩
    rw [variablePart?] at hpart
    generalize factors.filter (!·.isNumber) = vars at hpart hfactors
    rcases vars with _ | ⟨first, _ | ⟨second, rest⟩⟩
    · cases hpart
    · cases hpart
      exact hfactors first (by simp)
    · cases hpart
      exact ⟨.prod trivial fun f hf => (hfactors f hf).1, rfl⟩
  | sym _ | sum _ | pow _ _ | call _ _ _ _ | deriv _ _ | integral _ _ _ _ =>
    cases hpart
    exact ⟨h, rfl⟩

/-- A term stands for its coefficient times its variable part. -/
theorem exactCoefficient_mul {R : Type*} [CommRing R] (m : RingMeaning R) {term : Expr}
    (h : term.Everywhere Unrounded) :
    (term.exactCoefficient : R) * (term.variablePart?.getD 1).value m.toMeaning =
      term.value m.toMeaning := by
  have hone : (1 : Expr).value m.toMeaning = 1 := m.num_one
  cases term with
  | num n =>
    obtain ⟨k, rfl⟩ := h.here.exists_int
    simp [exactCoefficient, numbers, variablePart?, hone, m.num_int, Number.toInt]
  | prod factors =>
    have hnumbers : ((Expr.prod factors).exactCoefficient : R) =
        ((factors.filterMap number?).map m.num).prod := by
      rw [exactCoefficient, Int.cast_list_prod, List.map_map]
      refine congrArg List.prod (List.map_congr_left fun n hn => ?_)
      obtain ⟨k, rfl⟩ := exists_int_of_mem_numbers h n hn
      exact (m.num_int k).symm
    rw [hnumbers, Simplify.variablePart_prod, value_prodOf m.num_one, prod_numbers, value_prod]
  | sym _ | sum _ | pow _ _ | call _ _ _ _ | deriv _ _ | integral _ _ _ _ =>
    simp [exactCoefficient, numbers, variablePart?]

/-- The variable parts of terms, without repetitions, in the order in which they appear first. -/
def variableParts (terms : List Expr) : List Expr :=
  (terms.filterMap variablePart?).eraseDups

/-- The coefficients of the terms with the given variable part, added up in the integers. -/
def totalOf (terms : List Expr) (part : Expr) : ℤ :=
  ((terms.filter fun term => term.variablePart?.any (part == ·)).map exactCoefficient).sum

section

variable {terms : List Expr} {term part : Expr}

theorem unrounded_of_mem_variableParts (h : ∀ t ∈ terms, t.Everywhere Unrounded)
    (hpart : part ∈ variableParts terms) : part.Everywhere Unrounded := by
  obtain ⟨t, ht, hsome⟩ := List.mem_filterMap.1 (mem_of_mem_eraseDups hpart)
  exact (variablePart_of_unrounded (h t ht) hsome).1

theorem nodup_variableParts (terms : List Expr) : (variableParts terms).Nodup :=
  (pairwise_eraseDups _).imp fun {a b} hab heq => by
    rw [heq, beq_refl] at hab
    cases hab

/-- A variable part is new behind the terms if it is none of theirs. -/
theorem variableParts_concat (h : ∀ t ∈ terms, t.Everywhere Unrounded)
    (hterm : term.Everywhere Unrounded) :
    (∀ part ∈ term.variablePart?, part ∉ variableParts terms) ∧
        variableParts (terms ++ [term]) = variableParts terms ++ term.variablePart?.toList ∨
      (∃ part ∈ term.variablePart?, part ∈ variableParts terms) ∧
        variableParts (terms ++ [term]) = variableParts terms := by
  unfold variableParts
  rw [List.filterMap_append]
  cases hpart : term.variablePart? with
  | none => simp [hpart]
  | some part =>
    have hunrounded := (variablePart_of_unrounded hterm hpart).1
    have hmem : (terms.filterMap variablePart?).any (part == ·) = true ↔
        part ∈ (terms.filterMap variablePart?).eraseDups := by
      rw [← any_eraseDups]
      exact any_beq_iff_mem hunrounded fun b hb => unrounded_of_mem_variableParts h hb
    have hlast : [term].filterMap variablePart? = [part] := by simp [hpart]
    rw [hlast, eraseDups_concat]
    split
    · rename_i hany
      exact .inr ⟨⟨part, rfl, hmem.1 hany⟩, rfl⟩
    · rename_i hany
      refine .inl ⟨fun p hp => ?_, rfl⟩
      cases hp
      exact fun hold => hany (hmem.2 hold)

theorem totalOf_concat_of_part (hpart : term.variablePart? = some part) :
    totalOf (terms ++ [term]) part = totalOf terms part + term.exactCoefficient := by
  simp [totalOf, List.filter_append, hpart]

theorem totalOf_concat_of_ne (hterm : term.Everywhere Unrounded) (hunrounded : part.Everywhere Unrounded)
    (hne : term.variablePart? ≠ some part) : totalOf (terms ++ [term]) part = totalOf terms part := by
  have hlast : term.variablePart?.any (part == ·) = false := by
    cases hother : term.variablePart? with
    | none => rfl
    | some other =>
      refine Bool.eq_false_iff.2 fun hsame => hne ?_
      have hotherUnrounded := (variablePart_of_unrounded hterm hother).1
      rw [hother, (beq_iff_eq_of_unrounded hunrounded hotherUnrounded).1 hsame]
  simp [totalOf, List.filter_append, hlast]

theorem totalOf_eq_zero (h : ∀ t ∈ terms, t.Everywhere Unrounded) (hunrounded : part.Everywhere Unrounded)
    (hnew : part ∉ variableParts terms) : totalOf terms part = 0 := by
  have hnone : terms.filter (fun term => term.variablePart?.any (part == ·)) = [] := by
    refine List.filter_eq_nil_iff.2 fun t ht hany => hnew ?_
    obtain ⟨other, hother, hsame⟩ := (Option.any_eq_true _ _).1 hany
    have hmem : other ∈ terms.filterMap variablePart? := List.mem_filterMap.2 ⟨t, ht, hother⟩
    refine (any_beq_iff_mem hunrounded fun b hb => unrounded_of_mem_variableParts h hb).1 ?_
    rw [variableParts, any_eraseDups]
    exact List.any_eq_true.2 ⟨other, hmem, hsame⟩
  rw [totalOf, hnone]
  rfl

end

end Expr

namespace Simplify

/-! ### Groups -/

/-- No product and no sum on the way to the coefficients of the groups leaves the range of a word. -/
structure Fits (terms : List Expr) : Prop where
  product : ∀ term ∈ terms, ∀ before, before <+: term.numbers →
    InRange (before.map Number.toInt).prod
  sum : ∀ part ∈ terms.filterMap Expr.variablePart?, ∀ before, before <+: terms →
    InRange (Expr.totalOf before part)

theorem Fits.init {terms : List Expr} {term : Expr} (h : Fits (terms ++ [term])) : Fits terms where
  product t ht := h.product t (List.mem_append_left _ ht)
  sum part hpart before hbefore :=
    h.sum part (by simp only [List.filterMap_append, List.mem_append, hpart, true_or]) before
      (List.prefix_append_of_prefix hbefore)

/-- A group of terms: their coefficient, and their variable part unless it is a number. -/
abbrev WordGroup := Int64 × Option Expr

/-- The group with `1` for the variable part of a number. -/
def WordGroup.stored (group : WordGroup) : Number × Expr :=
  (.int group.1, group.2.getD 1)

/-- The term of a group. -/
def WordGroup.term (group : WordGroup) : Expr :=
  .buildProd [.num (.int group.1), group.2.getD 1]

/-- What a term with the given coefficient and variable part does to the groups: it opens one at the end or
joins the one that has its part. -/
inductive Joined (coefficient : ℤ) (part : Option Expr) : List WordGroup → List WordGroup → Prop
  | opens {groups : List WordGroup} {c : Int64} (hc : c.toInt = coefficient)
      (hnew : ∀ p ∈ part, p ∉ groups.filterMap Prod.snd) :
      Joined coefficient part groups (groups ++ [(c, part)])
  | joins {before after : List WordGroup} {p : Expr} {c c' : Int64} (hpart : part = some p)
      (hc : c'.toInt = c.toInt + coefficient) :
      Joined coefficient part (before ++ (c, some p) :: after) (before ++ (c', some p) :: after)

/-- A coefficient is added to the group of its part, past groups with other parts. -/
theorem addToGroup_old {part : Expr} {before : List WordGroup}
    (h : ∀ group ∈ before, (group.stored.2 == part) = false) {k c : Int64}
    (hsum : InRange (c.toInt + k.toInt)) (after : List WordGroup) :
    addToGroup (.int k) part ((before ++ (c, some part) :: after).map WordGroup.stored) =
      (before ++ (.ofInt (c.toInt + k.toInt), some part) :: after).map WordGroup.stored := by
  induction before with
  | nil =>
    show addToGroup (.int k) part ((.int c, part) :: after.map WordGroup.stored) = _
    rw [addToGroup, if_pos (beq_self_eq_true part), Number.int_add hsum]
    rfl
  | cons group before ih =>
    obtain ⟨hgroup, hbefore⟩ := List.forall_mem_cons.1 h
    rw [List.cons_append, List.map_cons, addToGroup, if_neg (by simpa using hgroup), ih hbefore]
    rfl

/-- A coefficient without a group opens one behind the others. -/
theorem addToGroup_new {part : Expr} {groups : List WordGroup}
    (h : ∀ group ∈ groups, (group.stored.2 == part) = false) (k : Int64) :
    addToGroup (.int k) part (groups.map WordGroup.stored) =
      (groups ++ [(k, some part)]).map WordGroup.stored := by
  induction groups with
  | nil => rfl
  | cons group groups ih =>
    obtain ⟨hgroup, hgroups⟩ := List.forall_mem_cons.1 h
    rw [List.map_cons, addToGroup, if_neg (by simpa using hgroup), ih hgroups]
    rfl

/-- The groups of terms: their parts, and their coefficients. A number is a group of its own. -/
structure Gathered (terms : List Expr) (groups : List WordGroup) : Prop where
  parts : groups.filterMap Prod.snd = Expr.variableParts terms
  total : ∀ c part, (c, some part) ∈ groups → c.toInt = Expr.totalOf terms part
  numbers : (groups.filter (·.2.isNone)).map (·.1.toInt) =
    (terms.filter (·.variablePart?.isNone)).map Expr.exactCoefficient

section

variable {terms : List Expr} {term : Expr} {groups groups' : List WordGroup}

theorem Gathered.mem_variableParts (hgroups : Gathered terms groups) {group : WordGroup}
    (hgroup : group ∈ groups) {part : Expr} (hpart : group.2 = some part) :
    part ∈ Expr.variableParts terms :=
  hgroups.parts ▸ List.mem_filterMap.2 ⟨group, hgroup, hpart⟩

/-- No other group has the part of a group. -/
theorem Gathered.part_ne {before after : List WordGroup} {c : Int64} {part : Expr}
    (hgroups : Gathered terms (before ++ (c, some part) :: after)) {group : WordGroup}
    (hgroup : group ∈ before ++ after) : group.2 ≠ some part := by
  have hnodup := Expr.nodup_variableParts terms
  rw [← hgroups.parts, List.filterMap_append] at hnodup
  intro hsame
  refine (List.nodup_cons.1 (List.nodup_middle.1 hnodup)).1 ?_
  rw [← List.filterMap_append]
  exact List.mem_filterMap.2 ⟨group, hgroup, hsame⟩

/-- What is stored for a group is a number or has no float in it, so it only compares equal to the part of
the group. -/
theorem Gathered.stored_ne (hgroups : Gathered terms groups)
    (hterms : ∀ t ∈ terms, t.Everywhere Unrounded) {part : Expr} (hunrounded : part.Everywhere Unrounded)
    (hnumber : part.isNumber = false) {group : WordGroup} (hgroup : group ∈ groups)
    (hne : group.2 ≠ some part) : (group.stored.2 == part) = false := by
  rw [WordGroup.stored]
  cases hother : group.2 with
  | none =>
    cases part with
    | num n => cases hnumber
    | sym _ | sum _ | prod _ | pow _ _ | call _ _ _ _ | deriv _ _ | integral _ _ _ _ => rfl
  | some other =>
    refine Bool.eq_false_iff.2 fun hsame => hne ?_
    have hotherUnrounded : other.Everywhere Unrounded :=
      Expr.unrounded_of_mem_variableParts hterms (hgroups.mem_variableParts hgroup hother)
    rw [hother, (Expr.beq_iff_eq_of_unrounded hotherUnrounded hunrounded).1 hsame]

/-- One more term opens a group or joins one. -/
theorem exists_joined (hterms : ∀ t ∈ terms, t.Everywhere Unrounded)
    (hterm : term.Everywhere Unrounded) (hfits : Fits (terms ++ [term]))
    (hgroups : Gathered terms groups) :
    ∃ groups', addTerm (groups.map WordGroup.stored) term = groups'.map WordGroup.stored ∧
      Joined term.exactCoefficient term.variablePart? groups groups' := by
  have hmem : term ∈ terms ++ [term] := by simp
  have hexact : (Int64.ofInt term.exactCoefficient).toInt = term.exactCoefficient :=
    toInt_ofInt (hfits.product term hmem _ (List.prefix_refl _))
  unfold addTerm
  rw [Expr.coefficient_eq hterm (hfits.product term hmem)]
  cases hpart : term.variablePart? with
  | none =>
    refine ⟨groups ++ [(.ofInt term.exactCoefficient, none)], ?_, .opens hexact fun _ hp => nomatch hp⟩
    rw [List.map_append]
    rfl
  | some part =>
    obtain ⟨hunrounded, hnumber⟩ := Expr.variablePart_of_unrounded hterm hpart
    by_cases hold : part ∈ groups.filterMap Prod.snd
    · obtain ⟨⟨c, _⟩, hgroup, rfl⟩ := List.mem_filterMap.1 hold
      obtain ⟨before, after, rfl⟩ := List.append_of_mem hgroup
      have hsum : InRange (c.toInt + (Int64.ofInt term.exactCoefficient).toInt) := by
        rw [hexact, hgroups.total c part hgroup, ← Expr.totalOf_concat_of_part hpart]
        exact hfits.sum part (List.mem_filterMap.2 ⟨term, hmem, hpart⟩) _ (List.prefix_refl _)
      refine ⟨_, addToGroup_old (fun group hmem => ?_) hsum after,
        .joins rfl (by rw [toInt_ofInt hsum, hexact])⟩
      exact hgroups.stored_ne hterms hunrounded hnumber (List.mem_append_left _ hmem)
        (hgroups.part_ne (List.mem_append_left _ hmem))
    · refine ⟨_, addToGroup_new (fun group hmem => ?_) _, .opens hexact fun p hp => ?_⟩
      · exact hgroups.stored_ne hterms hunrounded hnumber hmem fun heq =>
          hold (List.mem_filterMap.2 ⟨group, hmem, heq⟩)
      · cases hp
        exact hold

/-- The groups after one more term are those of the terms with it. -/
theorem Gathered.step (hgroups : Gathered terms groups) (hterms : ∀ t ∈ terms, t.Everywhere Unrounded)
    (hterm : term.Everywhere Unrounded)
    (h : Joined term.exactCoefficient term.variablePart? groups groups') :
    Gathered (terms ++ [term]) groups' := by
  have hconcat := Expr.variableParts_concat hterms hterm
  rw [← hgroups.parts] at hconcat
  cases h with
  | @opens _ c hc hnew =>
    refine ⟨?_, fun d part hmem => ?_, ?_⟩
    · rcases hconcat with ⟨-, heq⟩ | ⟨⟨part, hpart, hold⟩, -⟩
      · rw [heq, List.filterMap_append]
        cases term.variablePart? <;> rfl
      · exact absurd hold (hnew part hpart)
    · rcases List.mem_append.1 hmem with hmem | hmem
      · have hold := hgroups.mem_variableParts hmem rfl
        rw [Expr.totalOf_concat_of_ne hterm (Expr.unrounded_of_mem_variableParts hterms hold) fun heq =>
          hnew part heq (hgroups.parts ▸ hold), hgroups.total d part hmem]
      · obtain ⟨rfl, hpart⟩ := Prod.mk.inj (List.mem_singleton.1 hmem)
        rw [Expr.totalOf_concat_of_part hpart.symm, Expr.totalOf_eq_zero hterms
          (Expr.variablePart_of_unrounded hterm hpart.symm).1 fun hold =>
            hnew part hpart.symm (hgroups.parts ▸ hold), zero_add, hc]
    · rw [List.filter_append, List.filter_append, List.map_append, List.map_append, hgroups.numbers]
      cases hpart : term.variablePart? <;> simp [hpart, hc]
  | @joins before after p c c' hpart hc =>
    refine ⟨?_, fun d part hmem => ?_, ?_⟩
    · rcases hconcat with ⟨hnew, -⟩ | ⟨-, heq⟩
      · exact absurd (by simp) (hnew p hpart)
      · rw [heq, List.filterMap_append, List.filterMap_append]
        rfl
    · rcases List.mem_cons.1 (List.perm_middle.mem_iff.1 hmem) with heq | hmem
      · obtain ⟨rfl, hp⟩ := Prod.mk.inj heq
        cases hp
        rw [hc, hgroups.total c p (by simp), Expr.totalOf_concat_of_part hpart]
      · have hold : (d, some part) ∈ before ++ (c, some p) :: after :=
          List.perm_middle.mem_iff.2 (List.mem_cons_of_mem _ hmem)
        have hunrounded := Expr.unrounded_of_mem_variableParts hterms (hgroups.mem_variableParts hold rfl)
        have hne : term.variablePart? ≠ some part := hpart ▸ (hgroups.part_ne hmem).symm
        rw [hgroups.total d part hold, Expr.totalOf_concat_of_ne hterm hunrounded hne]
    · have hnumbers := hgroups.numbers
      simpa [List.filter_append, hpart] using hnumbers

variable {R : Type*} [CommRing R] (m : RingMeaning R)

/-- The value of a group. -/
def WordGroup.value (group : WordGroup) : R :=
  group.1.toInt * (group.2.getD 1).value m.toMeaning

theorem Joined.value {coefficient : ℤ} {part : Option Expr} (h : Joined coefficient part groups groups') :
    (groups'.map (WordGroup.value m)).sum =
      (groups.map (WordGroup.value m)).sum + coefficient * (part.getD 1).value m.toMeaning := by
  cases h with
  | opens hc _ => simp [WordGroup.value, hc]
  | joins hpart hc =>
    simp only [List.map_append, List.map_cons, List.sum_append, List.sum_cons, WordGroup.value, hc,
      hpart, Int.cast_add, Option.getD_some]
    ring

/-- A group stands for its coefficient times its part. -/
theorem WordGroup.value_term {group : WordGroup} (h : ∀ part ∈ group.2, part.Everywhere Unrounded) :
    group.term.value m.toMeaning = group.value m := by
  have hpart : (group.2.getD 1).Everywhere Unrounded := by
    cases hpart : group.2 with
    | none => exact .num trivial
    | some part => exact h part hpart
  have hfactors : ∀ f ∈ [.num (.int group.1), group.2.getD 1], f.Everywhere Unrounded := by
    simpa using ⟨Everywhere.num (p := Unrounded) trivial, hpart⟩
  rw [WordGroup.term, Expr.value_buildProd m.num_one (by simp [m.num_zero]) hfactors]
  simp [WordGroup.value, m.num_int]

end

/-- The groups of terms, and what they add up to. -/
theorem exists_gathered.{u} {terms : List Expr} (hterms : ∀ t ∈ terms, t.Everywhere Unrounded)
    (hfits : Fits terms) :
    ∃ groups : List WordGroup, groupTerms terms = groups.map WordGroup.stored ∧ Gathered terms groups ∧
      ∀ (R : Type u) [CommRing R] (m : RingMeaning R),
        (groups.map (WordGroup.value m)).sum = (terms.map (Expr.value m.toMeaning)).sum := by
  change ∃ groups : List WordGroup, terms.foldl addTerm [] = _ ∧ _
  induction terms using List.reverseRecOn with
  | nil => exact ⟨[], rfl, ⟨rfl, fun _ _ hmem => (nomatch hmem), rfl⟩, fun R _ m => rfl⟩
  | append_singleton terms term ih =>
    obtain ⟨hbefore, hterm⟩ := List.forall_mem_append.1 hterms
    rw [List.forall_mem_singleton] at hterm
    obtain ⟨groups, hstored, hgroups, hvalue⟩ := ih hbefore hfits.init
    obtain ⟨groups', hstored', hjoined⟩ := exists_joined hbefore hterm hfits hgroups
    refine ⟨groups', ?_, hgroups.step hbefore hterm hjoined, fun R _ m => ?_⟩
    · rw [List.foldl_append, List.foldl_cons, List.foldl_nil, hstored, hstored']
    · rw [hjoined.value m, hvalue R m, Expr.exactCoefficient_mul m hterm]
      simp

/-- The groups that are left when those with the coefficient zero have gone. -/
structure KeptGroups (terms : List Expr) (groups : List WordGroup) : Prop where
  nonzero : ∀ group ∈ groups, group.1 ≠ 0
  nodup : (groups.filterMap Prod.snd).Nodup
  parts : groups.filterMap Prod.snd = (Expr.variableParts terms).filter (Expr.totalOf terms · ≠ 0)
  total : ∀ c part, (c, some part) ∈ groups → c.toInt = Expr.totalOf terms part
  numbers : (groups.filter (·.2.isNone)).map (·.1.toInt) =
    ((terms.filter (·.variablePart?.isNone)).map Expr.exactCoefficient).filter (· ≠ 0)

theorem toInt_ne_zero_iff {c : Int64} : c.toInt ≠ 0 ↔ c ≠ 0 :=
  not_congr (Int64.toInt_inj (y := 0))

theorem Gathered.kept {terms : List Expr} {groups : List WordGroup} (h : Gathered terms groups) :
    KeptGroups terms (groups.filter (·.1 ≠ 0)) := by
  have hparts : (groups.filter (·.1 ≠ 0)).filterMap Prod.snd =
      (Expr.variableParts terms).filter (Expr.totalOf terms · ≠ 0) := by
    rw [← h.parts, List.filterMap_filter, List.filter_filterMap]
    refine List.filterMap_congr fun ⟨c, part⟩ hmem => ?_
    cases part with
    | none => simp
    | some part => simp [Option.filter, ← h.total c part hmem, ← toInt_ne_zero_iff]
  refine ⟨fun group hgroup => by simpa using (List.mem_filter.1 hgroup).2, ?_, hparts,
    fun c part hmem => h.total c part (List.mem_of_mem_filter hmem), ?_⟩
  · rw [hparts]
    exact (Expr.nodup_variableParts terms).filter _
  · rw [← h.numbers, List.filter_map, List.filter_filter, List.filter_filter]
    refine congrArg _ (List.filter_congr fun group _ => ?_)
    simp [← toInt_ne_zero_iff, Bool.and_comm]

/-- Groups with the coefficient zero add nothing. -/
theorem sum_value_kept {R : Type*} [CommRing R] (m : RingMeaning R) (groups : List WordGroup) :
    ((groups.filter (·.1 ≠ 0)).map (WordGroup.value m)).sum = (groups.map (WordGroup.value m)).sum := by
  induction groups with
  | nil => rfl
  | cons group groups ih =>
    by_cases hzero : group.1 = 0
    · have hvalue : group.value m = 0 := by simp [WordGroup.value, hzero]
      rw [List.filter_cons_of_neg (by simpa using hzero), ih, List.map_cons, List.sum_cons, hvalue, zero_add]
    · rw [List.filter_cons_of_pos (by simpa using hzero), List.map_cons, List.map_cons, List.sum_cons,
        List.sum_cons, ih]

theorem combineLikeTerms_of_groups {terms : List Expr} {groups : List WordGroup}
    (h : groupTerms terms = groups.map WordGroup.stored) :
    combineLikeTerms terms = (groups.filter (·.1 ≠ 0)).map WordGroup.term := by
  have hnonzero : (groups.filter fun group => !group.stored.1.isZero) = groups.filter (·.1 ≠ 0) := by
    refine List.filter_congr fun group _ => ?_
    show (!(group.1 == 0)) = decide (group.1 ≠ 0)
    rw [Bool.eq_iff_iff]
    simp
  rw [combineLikeTerms, h, List.filter_map, List.map_map, ← hnonzero]
  rfl

/-- Combining like terms gives one term for each group, with the coefficient that its terms add up to. The
variable parts are different, in the order in which they appear first, and no coefficient is zero. In every
ring, whatever symbols and other operations stand for, the sum has the value it had. -/
theorem combineLikeTerms_collects.{u} {terms : List Expr} (hterms : ∀ t ∈ terms, t.Everywhere Unrounded)
    (hfits : Fits terms) :
    (∃ groups : List WordGroup, combineLikeTerms terms = groups.map WordGroup.term ∧ KeptGroups terms groups) ∧
      ∀ (R : Type u) [CommRing R] (m : RingMeaning R),
        ((combineLikeTerms terms).map (Expr.value m.toMeaning)).sum =
          (terms.map (Expr.value m.toMeaning)).sum := by
  obtain ⟨groups, hstored, hgroups, hvalue⟩ := exists_gathered.{u} hterms hfits
  refine ⟨⟨_, combineLikeTerms_of_groups hstored, hgroups.kept⟩, fun R _ m => ?_⟩
  have hterm : ∀ group ∈ groups.filter (·.1 ≠ 0), group.term.value m.toMeaning = group.value m := by
    refine fun group hmem => group.value_term m fun part hpart => ?_
    exact Expr.unrounded_of_mem_variableParts hterms
      (hgroups.mem_variableParts (List.mem_of_mem_filter hmem) hpart)
  rw [combineLikeTerms_of_groups hstored, List.map_map, ← hvalue R m, ← sum_value_kept]
  exact congrArg List.sum (List.map_congr_left hterm)

/-- A number, `x` and `y` several times, `y` with coefficients that cancel, and `x * y`. -/
def sampleTerms : List Expr :=
  [.prod [2, .sym "x"], 3, .sym "y", .prod [.sym "x", 5], .prod [.int (-1), .sym "y"],
    .prod [.sym "x", 4, .sym "y", 2]]

/-- The sample becomes `7 * x + 3 + 8 * (x * y)`. -/
theorem combineLikeTerms_collects_sample :
    ((∀ t ∈ sampleTerms, t.Everywhere Unrounded) ∧ Fits sampleTerms) ∧
    combineLikeTerms sampleTerms =
      [.prod [7, .sym "x"], 3, .prod [8, .sym "x", .sym "y"]] ∧
    (∃ groups : List WordGroup,
      combineLikeTerms sampleTerms = groups.map WordGroup.term ∧ KeptGroups sampleTerms groups) ∧
    ∀ (R : Type) [CommRing R] (m : RingMeaning R),
      ((combineLikeTerms sampleTerms).map (Expr.value m.toMeaning)).sum =
        (sampleTerms.map (Expr.value m.toMeaning)).sum := by
  have hnum (k : Int64) : (Expr.num (.int k)).Everywhere Unrounded := .num trivial
  have hnat (n : Nat) : (OfNat.ofNat n : Expr).Everywhere Unrounded := .num trivial
  have hsym (name : String) : (Expr.sym name).Everywhere Unrounded :=
    .intro trivial fun _ hpart => nomatch hpart
  have hprod (factors : List Expr) :
      (Expr.prod factors).Everywhere Unrounded ↔ ∀ f ∈ factors, f.Everywhere Unrounded :=
    ⟨Everywhere.factors, .prod trivial⟩
  have hterms : ∀ t ∈ sampleTerms, t.Everywhere Unrounded := by
    simp [sampleTerms, hprod, hsym, hnat, Expr.int, hnum]
  have hproduct : ∀ term ∈ sampleTerms, ∀ before ∈ term.numbers.inits,
      -2 ^ 63 ≤ (before.map Number.toInt).prod ∧ (before.map Number.toInt).prod < 2 ^ 63 := by
    decide +kernel
  have hsum : ∀ part ∈ sampleTerms.filterMap Expr.variablePart?, ∀ before ∈ sampleTerms.inits,
      -2 ^ 63 ≤ Expr.totalOf before part ∧ Expr.totalOf before part < 2 ^ 63 := by
    decide +kernel
  have hfits : Fits sampleTerms :=
    ⟨fun term hterm before hbefore => hproduct term hterm before ((List.mem_inits ..).2 hbefore),
      fun part hpart before hbefore => hsum part hpart before ((List.mem_inits ..).2 hbefore)⟩
  exact ⟨⟨hterms, hfits⟩, by rfl, combineLikeTerms_collects hterms hfits⟩

end Simplify

end Workings
