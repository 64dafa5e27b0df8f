import Workings.Proofs.Inserting
import Workings.Proofs.Integrands
import Workings.Proofs.NormalForm
import Workings.Proofs.Occurrences
import Workings.Proofs.Routine

/-!
# Derivatives of lines and of powers

A line has a number for its derivative (`Expr.Line.differentiate_eq`), and a multiple of a power of the
variable has the product of the numbers in front and the next lower power (`Expr.Powered.differentiate_eq`).
Both are simplified to themselves on the side, so what is put in the place of the derivative is what the
rules make of the body as it is written (`Simplify.exec_derivative`).

When a derivative is replaced by its value, another derivative of a body without calculus stays as it is,
unless it is the same one (`Expr.replace_derivOnce`).
-/

namespace Workings

/-! ### Polynomials -/

namespace Expr

variable {x : String} {p q t : Expr} {c c' k : Int64} {as : List Int64}

/-- The variable, or a multiple of it, in normal form. -/
inductive Multiple (x : String) : Int64 → Expr → Prop
  | once : Multiple x 1 (.sym x)
  | scaled {c : Int64} (zero : c ≠ 0) (one : c ≠ 1) : Multiple x c (.prod [.int c, .sym x])

/-- A polynomial of degree one at most in normal form, and its slope. -/
inductive Line (x : String) : Int64 → Expr → Prop
  | constant (d : Int64) : Line x 0 (.int d)
  | multiple {c : Int64} {t : Expr} (h : Multiple x c t) : Line x c t
  | raised {c d : Int64} {t : Expr} (h : Multiple x c t) (zero : d ≠ 0) : Line x c (.sum [t, .int d])
  | lifted {c d : Int64} {t : Expr} (h : Multiple x c t) (zero : d ≠ 0) : Line x c (.sum [.int d, t])

/-- A power of the variable, or a multiple of it, in normal form, and the coefficients in front. -/
inductive Powered (x : String) (k : Int64) : List Int64 → Expr → Prop
  | once : Powered x k [] (.pow (.sym x) (.int k))
  | scaled {a : Int64} (zero : a ≠ 0) (one : a ≠ 1) :
      Powered x k [a] (.prod [.int a, .pow (.sym x) (.int k)])

/-- A power of the variable with an exponent that is one less. -/
def lowered (x : String) (k : Int64) : Expr :=
  if k = 2 then .sym x else .pow (.sym x) (.int (.ofInt (k.toInt - 1)))

/-- The factors of the derivative of a multiple of a power. -/
def derivedFactors (x : String) (k : Int64) (as : List Int64) : List Expr :=
  (as ++ [k]).map .int ++ [lowered x k]

theorem Multiple.ne_zero (h : Multiple x c t) : c ≠ 0 := by
  cases h with
  | once => decide
  | scaled zero _ => exact zero

theorem Multiple.normalTerm (h : Multiple x c t) : t.NormalTerm := by
  cases h with
  | once => exact .sym x
  | scaled zero one => exact .prod (@NormalFactors.scaled c [x] zero one (by simp))

/-- A multiple of the variable and a number are a sum in normal form, in either order. -/
theorem Multiple.normalTerms {d : Int64} {terms : List Expr} (h : Multiple x c t) (hd : d ≠ 0)
    (hterms : terms.Perm [t, .int d]) : NormalTerms terms where
  two := by rw [hterms.length_eq]; rfl
  term e he := by
    rcases List.mem_pair.1 (hterms.mem_iff.1 he) with rfl | rfl
    · exact .inl h.normalTerm
    · exact .inr ⟨d, hd, rfl⟩
  number := by
    rw [(hterms.filterMap _).length_eq]
    cases h <;> exact Nat.le_refl 1
  apart := by
    have hone : (terms.filterMap variablePart?).length ≤ 1 := by
      rw [(hterms.filterMap _).length_eq]
      cases h <;> exact Nat.le_refl 1
    match terms.filterMap variablePart?, hone with
    | [], _ => exact .nil
    | [_], _ => exact List.pairwise_singleton _ _

/-- A polynomial of degree one is in normal form. -/
theorem Line.normal (h : Line x c p) : p.Normal := by
  cases h with
  | constant d => exact .num d
  | multiple h => exact .term h.normalTerm
  | raised h zero => exact .sum (h.normalTerms zero (.refl _))
  | lifted h zero => exact .sum (h.normalTerms zero (.swap _ _ _))

theorem differentiate_int (n : Int64) : (Expr.int n).differentiate x = 0 := rfl

/-- The derivative of a product of a number and a part, if the derivative of the part is not zero. -/
theorem differentiate_scaled {a : Int64} {e de : Expr} (hvaries : e.mentions x = true)
    (he : e.differentiate x = de) (hde : de.isValue 0 = false) :
    (Expr.prod [.int a, e]).differentiate x = buildSum [buildProd [.int a, de]] := by
  have hzero : (0 : Expr).isValue 0 = true := rfl
  rw [differentiate_prod, if_pos (by simp [anyMentions, hvaries]), List.map_cons, List.map_cons,
    differentiate_int, he, List.map_nil]
  simp [productTerms, hzero, hde]

theorem buildSum_singleton {e : Expr} (hsum : e.isSum = false) (hzero : e.isValue 0 = false) :
    buildSum [e] = e := by
  cases e with
  | sum _ => cases hsum
  | _ => simp [buildSum, flatTerms, sumOf, hzero]

theorem Multiple.mentions (h : Multiple x c t) : t.mentions x = true := by
  cases h <;> simp [Expr.mentions, anyMentions]

theorem Multiple.isValue_eq_false (h : Multiple x c t) : (Expr.int c).isValue 0 = false :=
  beq_false_of_ne (a := c) (b := 0) h.ne_zero

/-- The derivative of a multiple of the variable is the number in front. -/
theorem Multiple.differentiate_eq (h : Multiple x c t) : t.differentiate x = .int c := by
  have hzero := h.isValue_eq_false
  have hsym : (Expr.sym x).differentiate x = 1 := by rw [differentiate_sym, if_pos rfl]
  cases h with
  | once => exact hsym
  | scaled zero one =>
    have hone : (Expr.int c).isValue 1 = false := beq_false_of_ne (a := c) (b := 1) one
    have hprod : buildProd [.int c, 1] = .int c := by
      have hself : (1 : Expr).isValue 1 = true := rfl
      simp only [Expr.int] at hzero hone
      simp [buildProd, Expr.int, flatFactors, hself, hzero, hone, prodOf]
    rw [differentiate_scaled (by simp [Expr.mentions]) hsym rfl, hprod, buildSum_singleton rfl hzero]

/-- The derivative of a polynomial of degree one is its slope. -/
theorem Line.differentiate_eq (h : Line x c p) : p.differentiate x = .int c := by
  have hzero : (0 : Expr).isValue 0 = true := rfl
  have hsum {terms : List Expr} {c : Int64} (hmentions : anyMentions x terms = true)
      (hterms : flatTerms (terms.map (differentiate x)) = [.int c]) :
      (Expr.sum terms).differentiate x = .int c := by
    rw [differentiate_sum, if_pos hmentions, buildSum, hterms]
    rfl
  cases h with
  | constant d => rfl
  | multiple h => exact h.differentiate_eq
  | raised h zero =>
    apply hsum
    · simp [anyMentions, h.mentions]
    · rw [List.map_cons, List.map_cons, h.differentiate_eq, differentiate_int]
      show (if (Expr.int c).isValue 0 = true then _ else _) = _
      rw [h.isValue_eq_false]
      rfl
  | lifted h zero =>
    apply hsum
    · simp [anyMentions, h.mentions]
    · rw [List.map_cons, List.map_cons, h.differentiate_eq, differentiate_int]
      show (if (Expr.int c).isValue 0 = true then _ else _) = _
      rw [h.isValue_eq_false]
      rfl

/-- A power above the first is lowered by its derivative. -/
theorem buildPow_sub_one (hk : 2 ≤ k.toInt) :
    buildPow (.sym x) (.num (.int k - 1)) = lowered x k := by
  have hrange : InRange (k.toInt - 1) := by
    obtain ⟨hlow, hhigh⟩ := inRange_toInt k
    constructor <;> omega
  have hsub : Number.int k - 1 = .int (.ofInt (k.toInt - 1)) := Number.exactOr_eq hrange _
  have hvalue := toInt_ofInt hrange
  rw [hsub, lowered]
  by_cases htwo : k = 2
  · subst htwo
    rfl
  have hne : k.toInt ≠ 2 := fun heq => htwo (Int64.toInt_inj.1 heq)
  have hnot (m : Int64) (hm : m.toInt ≠ k.toInt - 1) :
      (Expr.num (.int (.ofInt (k.toInt - 1)))).isValue (.int m) = false := by
    refine beq_false_of_ne (a := Int64.ofInt (k.toInt - 1)) (b := m) ?_
    rintro rfl
    exact hm hvalue
  have hone : (Expr.num (.int (.ofInt (k.toInt - 1)))).isValue 1 = false := hnot 1 (by simp; omega)
  have hzero : (Expr.num (.int (.ofInt (k.toInt - 1)))).isValue 0 = false := hnot 0 (by simp; omega)
  rw [if_neg htwo, buildPow, hone, hzero, if_neg Bool.false_ne_true]
  exact if_neg Bool.false_ne_true

theorem lowered_cases (x : String) (k : Int64) :
    lowered x k = .sym x ∨ lowered x k = .pow (.sym x) (.int (.ofInt (k.toInt - 1))) := by
  unfold lowered
  split
  · exact .inl rfl
  · exact .inr rfl

/-- The product of numbers and what flattens to numbers and a lowered power. -/
theorem buildProd_lowered (ns front : List Int64) {rest : List Expr}
    (hns : ∀ n ∈ ns ++ front, n ≠ 0 ∧ n ≠ 1) (hne : ns ≠ [])
    (hrest : flatFactors rest = front.map .int ++ [lowered x k]) :
    buildProd (ns.map .int ++ rest) = .prod ((ns ++ front).map .int ++ [lowered x k]) := by
  have hatoms (ms : List Int64) (hms : ∀ n ∈ ms, n ≠ 0 ∧ n ≠ 1) :
      ∀ f ∈ ms.map Expr.int, f.Atom :=
    List.forall_mem_map.2 fun n hn => .num (hms n hn).1 (hms n hn).2
  have hlowered : (lowered x k).isValue 0 = false := by
    rcases lowered_cases x k with h | h <;> rw [h] <;> rfl
  have hzero : ((ns ++ front).map Expr.int ++ [lowered x k]).any (·.isValue 0) = false := by
    rw [List.any_append, any_zero_of_atoms (hatoms _ hns)]
    simp [hlowered]
  have hflat : flatFactors (ns.map .int ++ rest) = (ns ++ front).map .int ++ [lowered x k] := by
    rw [flatFactors_append, flatFactors_of_atoms (hatoms ns fun n hn => hns n (by simp [hn])), hrest,
      List.map_append, List.append_assoc]
  rw [buildProd, hflat]
  rw [hzero, if_neg Bool.false_ne_true]
  obtain ⟨n, ns, rfl⟩ := List.exists_cons_of_ne_nil hne
  cases hrest : (ns ++ front).map Expr.int ++ [lowered x k] with
  | nil => simp at hrest
  | cons e es =>
    rw [List.cons_append, List.map_cons, List.cons_append, hrest]
    rfl

/-- The derivative of a multiple of a power. -/
theorem Powered.differentiate_eq (hk : 2 ≤ k.toInt) (h : Powered x k as p) :
    p.differentiate x = .prod (derivedFactors x k as) := by
  have hone : flatFactors [lowered x k, 1] = [lowered x k] := by
    rcases lowered_cases x k with hlowered | hlowered <;> rw [hlowered] <;> rfl
  have hvalue : k ≠ 0 ∧ k ≠ 1 := by
    constructor <;> rintro rfl <;> exact absurd hk (by decide)
  have hpow : (Expr.pow (.sym x) (.int k)).differentiate x = .prod [.int k, lowered x k] := by
    rw [Expr.differentiate_eq, if_pos (by simp [varies, Expr.mentions])]
    show buildProd [.int k, buildPow (.sym x) (.num (.int k - 1)), Expr.differentiate x (.sym x)] = _
    rw [buildPow_sub_one hk, differentiate_sym, if_pos rfl]
    exact buildProd_lowered [k] [] (by simpa using hvalue) (by simp) hone
  cases h with
  | once => exact hpow
  | @scaled a zero one =>
    have hprod : buildProd [.int a, .prod [.int k, lowered x k]] =
        .prod [.int a, .int k, lowered x k] :=
      buildProd_lowered [a] [k] (by simp [zero, one, hvalue]) (by simp)
        (List.append_nil _)
    rw [differentiate_scaled (by simp [Expr.mentions]) hpow rfl, hprod, buildSum_singleton rfl rfl]
    rfl

theorem Line.hasCalculus_eq_false (h : Line x c p) : p.hasCalculus = false :=
  h.normal.hasCalculus_eq_false

theorem Powered.hasCalculus_eq_false (h : Powered x k as p) : p.hasCalculus = false := by
  cases h <;> rfl

/-! ### Derivatives that are not reached -/

mutual

theorem hasCalculus_normalize (e : Expr) : e.normalize.hasCalculus = e.hasCalculus := by
  cases e with
  | num _ | sym _ | deriv _ _ | integral _ _ _ _ => rfl
  | sum terms => simp only [normalize, hasCalculus, anyCalculus_normalizeAll terms]
  | prod factors => simp only [normalize, hasCalculus, anyCalculus_normalizeAll factors]
  | pow base exponent =>
    simp only [normalize, hasCalculus, hasCalculus_normalize base, hasCalculus_normalize exponent]
  | call f functional subscript superscript =>
    simp only [normalize, hasCalculus, anyCalculus_normalizeAll functional,
      anyCalculus_normalizeAll subscript, anyCalculus_normalizeAll superscript]

theorem anyCalculus_normalizeAll (es : List Expr) : anyCalculus (normalizeAll es) = anyCalculus es := by
  cases es with
  | nil => rfl
  | cons e es =>
    simp only [normalizeAll, anyCalculus, hasCalculus_normalize e, anyCalculus_normalizeAll es]

end

/-- An expression without calculus does not equal one that has it. -/
theorem beq_eq_false_of_hasCalculus {a b : Expr} (ha : a.hasCalculus = false) (hb : b.hasCalculus = true) :
    (a == b) = false := by
  rw [Bool.eq_false_iff]
  intro heq
  rw [← hasCalculus_normalize, (beq_iff a b).1 heq, hasCalculus_normalize, hb] at ha
  cases ha

/-- Nothing takes the place of a node without calculus if a derivative is replaced. -/
theorem actsAt_deriv_eq_false {r : Replacement} {body : Expr} {vars : List (String × Nat)}
    (hliteral : r.target.literal = .deriv body vars) (hnegated : r.target.negated.hasCalculus = true)
    {e : Expr} (he : e.hasCalculus = false) : r.actsAt e = false := by
  have hwhole : r.target.isWhole e = false := by
    rw [Target.isWhole, beq_eq_false_of_hasCalculus he (by rw [hliteral]; rfl),
      beq_eq_false_of_hasCalculus he hnegated]
    rfl
  refine Bool.or_eq_false_iff.2 ⟨hwhole, ?_⟩
  cases e with
  | num _ | sym _ | pow _ _ | call _ _ _ _ | deriv _ _ | integral _ _ _ _ => rfl
  | sum terms =>
    refine (Replacement.isSome_partOfSum? r terms).trans ?_
    rw [hliteral]
    exact Bool.and_false _
  | prod factors =>
    refine Bool.or_eq_false_iff.2 ⟨(Replacement.isSome_partOfProduct? r factors).trans ?_, ?_⟩
    · rw [hliteral]
      exact Bool.and_false _
    rw [Replacement.isNegatedPair, Bool.and_eq_false_iff, List.any_eq_false]
    refine .inr fun f hf => Bool.eq_false_iff.1 ?_
    exact beq_eq_false_of_hasCalculus (hasCalculus_of_mem_children he hf) hnegated

/-- Where there is no calculus, no derivative is replaced. -/
theorem apply_deriv_of_hasCalculus {r : Replacement} {body : Expr} {vars : List (String × Nat)}
    (hliteral : r.target.literal = .deriv body vars) (hnegated : r.target.negated.hasCalculus = true)
    {e : Expr} (he : e.hasCalculus = false) : r.apply e = e := by
  apply Replacement.apply_of_count_eq_zero
  induction e using induction_on_parts with
  | h e ih =>
    by_contra hcount
    obtain ⟨part, hpart, hpartCount⟩ :=
      Replacement.exists_part_of_count he (actsAt_deriv_eq_false hliteral hnegated he) hcount
    exact hpartCount (ih part hpart (hasCalculus_of_mem_children he hpart))

/-- Replacing a derivative by its value leaves any other derivative of a body without calculus as it is. -/
theorem replace_derivOnce (hq : q.hasCalculus = false) (value : Expr) :
    (q.derivOnce x).replace (p.derivOnce x) value =
      if q.derivOnce x == p.derivOnce x then value else q.derivOnce x := by
  obtain ⟨hliteral, hnegated⟩ := Target.within_eq (q.derivOnce x) (p.derivOnce x)
  have hneg : (Target.within (q.derivOnce x) (p.derivOnce x)).negated.hasCalculus = true := by
    rw [hnegated]
    rfl
  unfold replace
  generalize Target.within (q.derivOnce x) (p.derivOnce x) = target at hliteral hnegated hneg
  by_cases hsame : (q.derivOnce x == p.derivOnce x) = true
  · rw [if_pos hsame]
    refine Replacement.apply_of_whole? ?_
    rw [Replacement.whole?, hliteral, if_pos hsame]
  · have hother : Replacement.actsAt ⟨target, value, value.neg⟩ (q.derivOnce x) = false := by
      refine Bool.or_eq_false_iff.2 ⟨?_, rfl⟩
      rw [Target.isWhole, hliteral, hnegated, Bool.eq_false_iff.2 hsame]
      rfl
    have hrename : Replacement.rename ⟨target, value, value.neg⟩ x = x := by
      rw [Replacement.rename, Replacement.whole?, hliteral, hnegated]
      rfl
    rw [if_neg hsame, derivOnce, Replacement.apply_deriv hother,
      apply_deriv_of_hasCalculus hliteral hneg hq, List.map_cons, List.map_nil]
    dsimp only
    rw [hrename]

theorem Line.normalize_eq (h : Line x c p) : p.normalize = p := by
  cases h with
  | constant _ => rfl
  | multiple h => cases h <;> rfl
  | raised h _ => cases h <;> rfl
  | lifted h _ => cases h <;> rfl

theorem Powered.normalize_eq (h : Powered x k as p) : p.normalize = p := by
  cases h <;> rfl

theorem eq_of_derivOnce_beq (hp : p.normalize = p) (hq : q.normalize = q)
    (h : (p.derivOnce x == q.derivOnce x) = true) : p = q := by
  have hnormal := (beq_iff _ _).1 h
  injection hnormal with hbody _
  rw [← hp, ← hq]
  exact hbody

/-- A term that is the derivative of a line or has become the slope of the line. -/
inductive Pending (x : String) (c : Int64) : Expr → Prop
  | ahead {p : Expr} (line : Line x c p) : Pending x c (p.derivOnce x)
  | done : Pending x c (.int c)

/-- The change that the derivative of a line makes turns an equal derivative into its value and leaves any
other one as it is. -/
theorem Pending.replace {e : Expr} (h : Pending x c e) (hq : Line x c' q) :
    Pending x c (e.replace (q.derivOnce x) (.int c')) := by
  cases h with
  | @ahead p hp =>
    rw [replace_derivOnce hp.hasCalculus_eq_false]
    by_cases hsame : (p.derivOnce x == q.derivOnce x) = true
    · obtain rfl := eq_of_derivOnce_beq hp.normalize_eq hq.normalize_eq hsame
      have hslope := hp.differentiate_eq.symm.trans hq.differentiate_eq
      injection hslope with hnumber
      injection hnumber with hword
      rw [if_pos hsame, ← hword]
      exact .done
    · rw [if_neg hsame]
      exact .ahead hp
  | done =>
    have hkept : (Expr.int c).replace (q.derivOnce x) (.int c') = .int c := by
      obtain ⟨hliteral, hnegated⟩ := Target.within_eq (.int c) (q.derivOnce x)
      unfold Expr.replace
      refine apply_deriv_of_hasCalculus hliteral ?_ rfl
      dsimp only
      rw [hnegated]
      rfl
    rw [hkept]
    exact .done

/-- The derivative of a power is not reached by the changes that derivatives of lines make. -/
theorem Powered.replace (hk : 2 ≤ k.toInt) (h : Powered x k as p)
    (hq : Line x c' q) : (p.derivOnce x).replace (q.derivOnce x) (.int c') = p.derivOnce x := by
  rw [replace_derivOnce h.hasCalculus_eq_false, if_neg]
  intro hsame
  obtain rfl := eq_of_derivOnce_beq h.normalize_eq hq.normalize_eq hsame
  have hproduct := (h.differentiate_eq hk).symm.trans hq.differentiate_eq
  cases hproduct

end Expr

namespace Simplify

variable {x : String} {p : Expr} {c k : Int64} {as : List Int64}

/-! ### Bodies -/

/-- A power of a symbol stays, and so does a number in front of it. -/
theorem keeps_power (hk : 2 ≤ k.toInt) (depth : Nat) :
    Keeps (Expr.simplifyAt (depth + 2)) (.pow (.sym x) (.int k)) := by
  intro s hs
  have hone : (Expr.int k).isValue 1 = false :=
    beq_false_of_ne (a := k) (b := 1) (by rintro rfl; exact absurd hk (by decide))
  have hzero : (Expr.int k).isValue 0 = false :=
    beq_false_of_ne (a := k) (b := 0) (by rintro rfl; exact absurd hk (by decide))
  have hparts : Work.exec (Work.withBlock [.int k] fun id => do
      let base ← Expr.simplifyAt (depth + 1) (.sym x)
      return (base, ((← get).blockItem? id 0).getD (.int k))) s = (.ok (.sym x, .int k), s) := by
    refine Work.exec_withBlock_self ?_
    rw [Work.exec_bind_ok (keeps_atom (.sym x) depth _ (hs.opened [.int k])), Work.exec_get_bind,
      Sheet.blockItem?, block_append]
    rfl
  have hexponent : Work.exec (Expr.simplifyAt (depth + 1) (.int k)) s = (.ok (.int k), s) :=
    keeps_num k depth s hs
  have hbuilt : Expr.buildPow (.sym x) (.int k) = .pow (.sym x) (.int k) := by
    rw [Expr.buildPow, hone, hzero, if_neg Bool.false_ne_true]
    exact if_neg Bool.false_ne_true
  show Work.exec (power _ _ _) s = _
  unfold power
  rw [Work.exec_bind_ok hparts]
  dsimp only
  rw [if_neg (by exact Bool.false_ne_true), if_neg (by exact Bool.false_ne_true),
    if_neg (by exact Bool.false_ne_true), Work.exec_bind_ok hexponent]
  rw [hbuilt, Work.exec_bind_ok (exec_become_self _)]
  rfl

theorem keeps_powered (hk : 2 ≤ k.toInt) (h : Expr.Powered x k as p) (depth : Nat) :
    Keeps (Expr.simplifyAt (depth + 3)) p := by
  cases h with
  | once => exact keeps_power hk (depth + 1)
  | @scaled a zero one =>
    intro s hs
    have hone : (Expr.int a).isValue 1 = false := beq_false_of_ne (a := a) (b := 1) one
    have hzero : (Expr.int a).isValue 0 = false := beq_false_of_ne (a := a) (b := 0) zero
    have hsiblings : Work.exec (siblings (Expr.simplifyAt (depth + 2)) [.int a, .pow (.sym x) (.int k)]) s =
        (.ok [.int a, .pow (.sym x) (.int k)], s) := by
      refine exec_siblings fun e he => ?_
      rcases List.mem_pair.1 he with rfl | rfl
      · exact keeps_num a (depth + 1) _ (hs.opened _)
      · exact keeps_power hk depth _ (hs.opened _)
    have hany : [Expr.int a, .pow (.sym x) (.int k)].any (·.isValue 0) = false := by
      rw [List.any_cons, hzero]
      rfl
    have hkept : [Expr.int a, .pow (.sym x) (.int k)].filter (!·.isValue 1) =
        [.int a, .pow (.sym x) (.int k)] := by
      rw [List.filter_cons_of_pos (by rw [hone]; rfl)]
      rfl
    have hbuilt : Expr.buildProd [.int a, .pow (.sym x) (.int k)] =
        .prod [.int a, .pow (.sym x) (.int k)] := by
      have hflat : Expr.flatFactors [.int a, .pow (.sym x) (.int k)] = [.int a, .pow (.sym x) (.int k)] := by
        rw [Expr.flatFactors_cons (fun _ h => by cases h), hone]
        rfl
      rw [Expr.buildProd, hflat, hany]
      rfl
    show Work.exec (product _ _) s = _
    unfold product
    rw [hany, if_neg Bool.false_ne_true, Work.exec_bind_ok hsiblings]
    dsimp only
    rw [hany, if_neg Bool.false_ne_true, hkept]
    refine (Work.exec_bind_ok (exec_become_self _)).trans ?_
    show Work.exec (become _ (Expr.buildProd [.int a, .pow (.sym x) (.int k)]) >>= fun _ =>
      pure (Expr.buildProd [.int a, .pow (.sym x) (.int k)])) s = _
    rw [hbuilt]
    exact Work.exec_bind_ok (exec_become_self _)

end Simplify

/-! ### Work that makes no change -/

/-- From one sheet to the other nothing was changed: they have the same tree, blocks and steps, and the same
bindings and options. -/
structure Sheet.Noted (s t : Sheet) : Prop where
  tree : t.tree = s.tree
  blocks : t.blocks = s.blocks
  steps : t.steps = s.steps
  bindings : t.bindings = s.bindings
  options : t.options = s.options

namespace Sheet.Noted

variable {s t u : Sheet}

theorem trans (hst : s.Noted t) (htu : t.Noted u) : s.Noted u where
  tree := htu.tree.trans hst.tree
  blocks := htu.blocks.trans hst.blocks
  steps := htu.steps.trans hst.steps
  bindings := htu.bindings.trans hst.bindings
  options := htu.options.trans hst.options

theorem record (s : Sheet) (event : Event) : s.Noted (s.record event) := by
  rw [record_eq]
  exact ⟨rfl, rfl, rfl, rfl, rfl⟩

theorem report (s : Sheet) (status : Status) (reason : String) : s.Noted (s.report status reason) := by
  rw [report_eq]
  exact ⟨rfl, rfl, rfl, rfl, rfl⟩

theorem absorb (s side : Sheet) : s.Noted (s.absorb side) := by
  unfold Sheet.absorb
  cases side.reason with
  | none => exact ⟨rfl, rfl, rfl, rfl, rfl⟩
  | some reason =>
    have h := report s side.status reason
    exact ⟨h.tree, h.blocks, h.steps, h.bindings, h.options⟩

/-- Asking for a message takes nothing but the answers that the phrasing has left. -/
theorem wording (key verbose concise : String) (payload : Payload) (s : Sheet) :
    ∃ message t, Work.exec (Work.wording key verbose concise payload) s = (.ok message, t) ∧
      s.Noted t :=
  ⟨_, _, rfl, rfl, rfl, rfl, rfl, rfl⟩

end Sheet.Noted

namespace Simplify

/-! ### Taking a derivative -/

variable {simplify : Simplifier} {s : Sheet} {x : String} {p : Expr}

/-- A body that is simplified to itself on the side stays. -/
theorem exec_body_of_keeps (bound : List String)
    (hself : (s.bindings.without bound).replaceSymbols p = p) (hkeeps : Keeps simplify p)
    (hquiet : (s.aside p (s.bindings.without bound)).Quiet) :
    ∃ t, Work.exec (body simplify bound p) s = (.ok p, t) ∧ s.Noted t := by
  have hside : Work.exec (Work.onTheSide p (s.bindings.without bound) (simplify p)) s =
      (.ok (p, s.aside p (s.bindings.without bound)), s) := by
    rw [Work.exec_onTheSide, hkeeps _ hquiet]
    rfl
  refine ⟨_, ?_, .absorb s (s.aside p (s.bindings.without bound))⟩
  rw [body, Work.exec_get_bind]
  dsimp only
  rw [hself]
  exact (Work.exec_bind_ok hside).trans rfl

/-- There is a rule of differentiation for every shape. -/
theorem exec_differentiate (x : String) (e : Expr) (s : Sheet) :
    ∃ event, Work.exec (Work.differentiate x e) s = (.ok (e.differentiate x), s.record event) := by
  rw [Expr.differentiate_eq]
  unfold Work.differentiate
  by_cases hvaries : e.varies x = true
  · rw [hvaries]
    cases e <;> exact ⟨_, rfl⟩
  · rw [Bool.not_eq_true] at hvaries
    rw [hvaries]
    exact ⟨_, rfl⟩

variable (simplify) in
/-- A derivative of a body that stays is replaced by what the rules make of it, and that is simplified. -/
theorem exec_derivative (hself : (s.bindings.without [x]).replaceSymbols p = p)
    (hkeeps : Keeps simplify p) (hquiet : (s.aside p (s.bindings.without [x])).Quiet)
    (hnew : (p.differentiate x == p.derivOnce x) = false) :
    ∃ message t, s.Noted t ∧ Work.exec (derivative simplify p [(x, 1)]) s =
      Work.exec (Work.explain (p.derivOnce x) (p.differentiate x) message >>= fun _ =>
        simplify (p.differentiate x)) t := by
  obtain ⟨t, hbody, hst⟩ := exec_body_of_keeps [x] hself hkeeps hquiet
  obtain ⟨event, hdifferentiate⟩ := exec_differentiate x p t
  have hby : Work.exec (differentiateBy [(x, 1)] p) t = (.ok (p.differentiate x), t.record event) :=
    (Work.exec_bind_ok ((Work.exec_bind_ok hdifferentiate).trans rfl)).trans rfl
  have hdiffer : ¬ (p.differentiate x == .deriv p [(x, 1)]) = true := Bool.eq_false_iff.1 hnew
  obtain ⟨used, key, verbose, concise, payload, hstart⟩ : ∃ used key verbose concise payload,
      Work.exec (derivative simplify p [(x, 1)]) s = Work.exec (do
        modify (·.record used)
        let message ← Work.wording key verbose concise payload
        Work.explain (p.derivOnce x) (p.differentiate x) message
        simplify (p.differentiate x)) (t.record event) := by
    refine ⟨eventWith _ _ _ _ _, _, _, _, _, (Work.exec_bind_ok hbody).trans <|
      (Work.exec_bind_ok hby).trans (congrArg (Work.exec · (t.record event)) (if_neg hdiffer))⟩
  obtain ⟨message, u, hmessage, hu⟩ :=
    Sheet.Noted.wording key verbose concise payload ((t.record event).record used)
  refine ⟨message, u, ((hst.trans (.record t event)).trans (.record _ used)).trans hu, ?_⟩
  rw [hstart, Work.exec_bind_ok (Work.exec_modify _ _), Work.exec_bind_ok hmessage]

end Simplify

end Workings
