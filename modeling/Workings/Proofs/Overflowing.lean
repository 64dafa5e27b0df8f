import Workings.Proofs.NormalForm
import Workings.Proofs.Opposites
import Workings.Proofs.Rewriting

/-!
# Powers beyond the limit

A power of two numbers whose exponent is beyond the limit is not worked out. Under the policy of infinity it
is taken for positive infinity (`solve_beyond_limit`), whatever the sign of the power is and also for a negative
exponent. So it is infinite with the sign of the power, and finite for a negative exponent, only where the
exponent is not negative and the power is positive.
-/

namespace Workings

open Work (exec exec_bind_ok exec_get_bind exec_options_bind exec_changeWith)

/-! ### Numbers in a power -/

namespace Expr

/-- A number is replaced by another one, by the opposite of that one, or not at all. -/
theorem putWhole_num (m n value : Number) :
    (num m).putWhole (.num n) (.num value) = .num value ∨
      (num m).putWhole (.num n) (.num value) = .num (-value) ∨
      (num m).putWhole (.num n) (.num value) = .num m := by
  unfold putWhole
  generalize hr : (⟨⟨num n, (num n).neg, false⟩, num value, (num value).neg⟩ : Replacement) = r
  cases hat : r.actsAt (num m) with
  | true =>
    have hacts := Replacement.acts_apply hat
    generalize r.apply (num m) = e at hacts
    cases hacts with
    | literal _ => exact .inl (by rw [← hr])
    | negated _ _ =>
      refine .inr (.inl ?_)
      rw [← hr]
      rfl
  | false => exact .inr (.inr (Replacement.apply_num hat))

/-- A number that is alone is replaced as a whole. -/
theorem replace_num (m : Number) (part value : Expr) :
    (num m).replace part value = (num m).putWhole part value := by
  unfold replace Target.within
  dsimp only
  split <;> rfl

/-- The base of a power is replaced, and the exponent with it if it is the same number or the opposite one. -/
theorem rewrites_base (m n : Number) (value : Expr) :
    (pow (.num n) (.num m)).Rewrites (.num n) value (.pow value ((num m).putWhole (.num n) value)) := by
  have hwhole : (pow (.num n) (.num m)).isWhole (.num n) = false := rfl
  have hhas : (pow (.num n) (.num m)).hasWhole (.num n) = true := by
    rw [hasWhole_pow, hasWhole_self, Bool.true_or, Bool.or_true]
  have h := rewrites_whole value hhas
  rwa [putWhole_pow hwhole, putWhole_self] at h

/-- The exponent of a power is replaced, and the base is not if it is another number. -/
theorem rewrites_exponent {m n : Number} (value : Expr) (hsame : (m == n) = false)
    (hopposite : (m == -n) = false) :
    (pow (.num m) (.num n)).Rewrites (.num n) value (.pow (.num m) value) := by
  have hwhole : (pow (.num m) (.num n)).isWhole (.num n) = false := rfl
  have hhas : (pow (.num m) (.num n)).hasWhole (.num n) = true := by
    rw [hasWhole_pow, hasWhole_self, Bool.or_true, Bool.or_true]
  have hkept : (num m).hasWhole (.num n) = false := by
    rw [hasWhole_num]
    exact Bool.or_eq_false_iff.2 ⟨hsame, hopposite⟩
  have h := rewrites_whole value hhas
  rwa [putWhole_pow hwhole, putWhole_self, putWhole_of_not_hasWhole hkept] at h

end Expr

/-! ### Literals in a power -/

namespace Simplify

variable {s : Sheet} {base exponent : Number}

/-- A literal that is taken for another number is changed on the sheet. -/
theorem exec_literal_changed {n : Number} (hhas : s.tree.has (.num n) = true)
    (h : (s.options.clamp n == n) = false) :
    exec (literal n) s = (.ok (.num (s.options.clamp n)),
      (s.flag false).accept ⟨.num n, .num (s.options.clamp n), none, false⟩) := by
  rw [literal, Work.options, bind_assoc, exec_get_bind, pure_bind]
  dsimp only
  rw [h]
  have hchange : exec (Work.change (.num n) (.num (s.options.clamp n))) s = (.ok (),
      (s.flag false).accept ⟨.num n, .num (s.options.clamp n), none, false⟩) := by
    unfold Work.change
    rw [exec_changeWith, if_pos hhas]
  exact exec_bind_ok hchange

/-- A word, or an infinite number in its place. -/
def StandsFor (n : Number) (k : Int64) : Prop :=
  n = .int k ∨ n.Infinite

variable {b e : Int64}

/-- A literal that is not taken for zero. -/
theorem clamp_of_ne_zero {options : Options} (h : (options.clamp (.int b)).isZero = false) :
    options.clamp (.int b) = .int b ∨ (options.clamp (.int b)).Infinite := by
  rcases options.clamp_cases (.int b) with hsame | hzero | hinfinite
  · exact .inl hsame
  · rw [hzero] at h
    cases h
  · exact .inr hinfinite

/-- Simplifying the base may change the exponent as well, if it is the same number or the opposite one. -/
theorem exec_base (htree : s.tree = .pow (.num (.int b)) (.num (.int e)))
    (hbase : (s.options.clamp (.int b)).isZero = false) :
    ∃ base exponent t,
      exec (literal (.int b)) { s with blocks := s.blocks ++ [[.num (.int e)]] } = (.ok (.num base), t) ∧
      t.options = s.options ∧ t.tree = .pow (.num base) (.num exponent) ∧
      t.blockItem? s.blocks.length 0 = some (.num exponent) ∧
      (base = .int b ∧ s.options.clamp (.int b) = .int b ∨ base.Infinite) ∧ StandsFor exponent e := by
  rcases clamp_of_ne_zero hbase with hsame | hinfinite
  · refine ⟨.int b, .int e, _, exec_literal hsame, rfl, htree, ?_, .inl ⟨rfl, hsame⟩, .inl rfl⟩
    rw [Sheet.blockItem?, block_append]
    rfl
  · generalize hvalue : s.options.clamp (.int b) = value at hinfinite
    obtain ⟨hhas, hreplace⟩ := Expr.rewrites_base (.int e) (.int b) (.num value)
    obtain ⟨exponent, hexponent, hstands⟩ : ∃ exponent,
        (Expr.num (.int e)).putWhole (.num (.int b)) (.num value) = .num exponent ∧ StandsFor exponent e := by
      rcases Expr.putWhole_num (.int e) (.int b) value with h | h | h
      · exact ⟨_, h, .inr hinfinite⟩
      · exact ⟨_, h, .inr hinfinite.neg⟩
      · exact ⟨_, h, .inl rfl⟩
    have hliteral := exec_literal_changed (s := { s with blocks := s.blocks ++ [[.num (.int e)]] })
      (n := .int b) (htree ▸ hhas) (hvalue ▸ (hinfinite.same_int b).1)
    rw [hvalue] at hliteral
    refine ⟨value, exponent, _, hliteral, rfl, ?_, ?_, .inr hinfinite, hstands⟩
    · show s.tree.replace (.num (.int b)) (.num value) = _
      rw [htree, hreplace, hexponent]
    · show (((s.blocks ++ [[Expr.num (.int e)]]).map fun trees => trees.map
        (·.replace (.num (.int b)) (.num value))).getD s.blocks.length [])[0]? = _
      rw [List.map_append, List.getD_eq_getElem?_getD, List.getElem?_append_right (by simp)]
      simp [Expr.replace_num, hexponent]

/-- Simplifying the exponent leaves the base as it is, which is taken for itself together with its opposite. -/
theorem exec_exponent (htree : s.tree = .pow (.num base) (.num exponent))
    (hbase : base = .int b ∧ s.options.clamp (.int b) = .int b ∨ base.Infinite) (hne : b.toInt ≠ 0)
    (hstands : StandsFor exponent e) (hexponent : (s.options.clamp (.int e)).isZero = false) :
    ∃ taken t, exec (literal exponent) s = (.ok (.num taken), t) ∧ t.options = s.options ∧
      t.tree = .pow (.num base) (.num taken) ∧ StandsFor taken e := by
  rcases hstands with rfl | hinfinite
  · rcases clamp_of_ne_zero hexponent with hsame | hinfinite
    · exact ⟨_, s, exec_literal hsame, rfl, htree, .inl rfl⟩
    · have hother : (base == .int e) = false ∧ (base == -.int e) = false := by
        rcases hbase with ⟨rfl, hself⟩ | hbase
        · rw [← Bool.or_eq_false_iff, Bool.eq_false_iff]
          intro hwhole
          rw [Options.clamp_whole hself hne hwhole] at hinfinite
          cases hinfinite
        · exact ⟨(hbase.same_int e).1, (hbase.same_int e).2.2⟩
      obtain ⟨hhas, hreplace⟩ := Expr.rewrites_exponent (.num (s.options.clamp (.int e))) hother.1 hother.2
      refine ⟨_, _, exec_literal_changed (htree ▸ hhas) (hinfinite.same_int e).1, rfl, ?_, .inr hinfinite⟩
      show s.tree.replace (.num (.int e)) (.num (s.options.clamp (.int e))) = _
      rw [htree, hreplace]
  · exact ⟨_, s, exec_literal (s.options.clamp_infinite hinfinite), rfl, htree, .inr hinfinite⟩

/-- Under the policy of infinity the tree becomes positive infinity, which is not exact. -/
theorem exec_overflow (words : OverflowWords) (hpolicy : s.options.overflow = .infinity) :
    ∃ t, exec (overflow words s.tree) s = (.ok (.num (.float infinity)), t) ∧ t.approximate = true := by
  unfold overflow
  rw [exec_options_bind, hpolicy]
  dsimp only
  unfold overflowAs Work.estimate
  obtain ⟨message, missing, hmessage⟩ := Work.answers_wording words.infinityKey
    ("${previous}$ " ++ words.verbose ++ ", so we'll approximate it as $" ++ "\\infty" ++ "$.")
    (words.concise ++ "; approximate as $" ++ "\\infty" ++ "$.") [] s
  have hchange : exec (Work.changeWith ⟨s.tree, .num (.float infinity), some message, true⟩)
      { s with missing := missing } = (.ok (), (Sheet.flag { s with missing := missing } true).accept
        ⟨s.tree, .num (.float infinity), some message, true⟩) := by
    rw [exec_changeWith, if_pos (Expr.has_self s.tree)]
  exact ⟨_, (exec_bind_ok hmessage).trans (exec_bind_ok hchange), Bool.or_true s.approximate⟩

/-- A word other than zero and one, or an infinite number in its place, is no such value. -/
theorem same_int_of_two_le (hb : 2 ≤ b.toInt.natAbs) (hbase : base = .int b ∨ base.Infinite) {k : Int64}
    (hk : k.toInt.natAbs ≤ 1) : (base == .int k) = false := by
  rcases hbase with rfl | hinfinite
  · show (b == k) = false
    refine beq_eq_false_iff_ne.2 ?_
    rintro rfl
    omega
  · exact (hinfinite.same_int k).1

theorem abs_same_int_of_two_le (hb : 2 ≤ b.toInt.natAbs) (hbase : base = .int b ∨ base.Infinite) {k : Int64}
    (hk : k.toInt.natAbs ≤ 1) : (base.abs == .int k) = false := by
  rcases hbase with rfl | hinfinite
  · unfold Number.abs
    split
    · by_cases hmin : b = Int64.minValue
      · subst hmin
        rfl
      · rw [Number.neg_int hmin]
        show (-b == k) = false
        refine beq_eq_false_iff_ne.2 ?_
        rintro rfl
        rw [Number.toInt_neg hmin, Int.natAbs_neg] at hk
        omega
    · exact same_int_of_two_le hb (.inl rfl) hk
  · rw [hinfinite.abs_eq]
    exact (Number.Infinite.positive.same_int k).1

/-- An exponent that is beyond the limit is so as it is taken. -/
theorem isBeyondLimit_of_stands {options : Options} (hb : 2 ≤ b.toInt.natAbs)
    (hbase : base = .int b ∨ base.Infinite)
    (hlimit : Float.ofInt options.maxExponent.toInt < Float.ofInt |e.toInt|) (h : StandsFor exponent e) :
    isBeyondLimit options base exponent = true := by
  have hlt : Float.ofInt options.maxExponent.toInt < exponent.abs.toFloat := by
    rcases h with rfl | hinfinite
    · rwa [Number.abs_int_toFloat]
    · rw [hinfinite.abs_eq]
      exact ofInt_toInt_lt_infinity _
  unfold isBeyondLimit
  rw [decide_eq_true hlt, show (base.abs == (0 : Number)) = false from abs_same_int_of_two_le hb hbase (by decide),
    show (base.abs == (1 : Number)) = false from abs_same_int_of_two_le hb hbase (by decide)]
  rfl

/-- A power beyond the limit becomes positive infinity. -/
theorem exec_power_beyond (simplify : Simplifier) (hsimplify : ∀ n, simplify (.num n) = literal n)
    (htree : s.tree = .pow (.num (.int b)) (.num (.int e))) (hpolicy : s.options.overflow = .infinity)
    (hb : 2 ≤ b.toInt.natAbs) (hbase : (s.options.clamp (.int b)).isZero = false)
    (hexponent : (s.options.clamp (.int e)).isZero = false)
    (hlimit : Float.ofInt s.options.maxExponent.toInt < Float.ofInt |e.toInt|) :
    ∃ t, exec (power simplify (.num (.int b)) (.num (.int e))) s = (.ok (.num (.float infinity)), t) ∧
      t.approximate = true := by
  obtain ⟨base, exponent, t, hfirst, hoptions, htree, hblock, hbase', hstands⟩ := exec_base htree hbase
  have hword : base = .int b ∨ base.Infinite := hbase'.imp_left And.left
  have hparts : exec (Work.withBlock [.num (.int e)] fun id => do
      let base ← simplify (.num (.int b))
      return (base, ((← get).blockItem? id 0).getD (.num (.int e)))) s =
        (.ok (.num base, .num exponent), { t with blocks := t.blocks.take s.blocks.length }) := by
    rw [Work.exec_withBlock, hsimplify]
    dsimp only
    rw [exec_bind_ok hfirst, exec_get_bind, hblock]
    rfl
  obtain ⟨taken, u, hsecond, hoptions', htree', htaken⟩ :=
    exec_exponent (s := { t with blocks := t.blocks.take s.blocks.length }) htree
      (hoptions ▸ hbase') (by omega) hstands (hoptions ▸ hexponent)
  have hcurrent : exec (overflow .limit (.pow (.num base) (.num taken))) u =
      exec (overflow .limit u.tree) u := by rw [htree']
  have hsame : u.options = s.options := hoptions'.trans hoptions
  obtain ⟨v, hoverflow, happroximate⟩ := exec_overflow .limit (hsame ▸ hpolicy)
  refine ⟨v, ?_, happroximate⟩
  unfold power
  rw [exec_bind_ok hparts]
  dsimp only
  rw [show (Expr.num base).isValue 0 = false from same_int_of_two_le hb hword (by decide),
    show (Expr.num base).isValue 1 = false from same_int_of_two_le hb hword (by decide),
    show isRootExponent (.num exponent) = false from rfl]
  simp only [Bool.false_and, Bool.false_eq_true, if_false]
  rw [hsimplify, exec_bind_ok hsecond]
  dsimp only
  rw [show (base == (-1 : Number)) = false from same_int_of_two_le hb hword (k := -1) (by decide)]
  simp only [Bool.false_and, Bool.false_eq_true, if_false]
  unfold numericPower
  rw [exec_options_bind, isBeyondLimit_of_stands hb hword (hsame ▸ hlimit) htaken, if_pos rfl, hcurrent]
  exact hoverflow

end Simplify

/-! ### Solutions -/

theorem infinity_ne_neg_infinity : Expr.num (.float infinity) ≠ .num (.float (-infinity)) := by
  intro h
  have hsame : infinity = -infinity := Number.float.inj (Expr.num.inj h)
  have hunpack := congrArg (·.toModel.unpack) hsame
  simp only [unpack_infinity, unpack_neg_infinity] at hunpack
  cases hunpack

/-- Infinite with the sign of the power of two integers if the exponent is positive, and not infinite if it is
negative. -/
structure SignedInfinity (b e : ℤ) (result : Expr) : Prop where
  positive : 0 < e → 0 < b ^ e.toNat → result = .num (.float infinity)
  negative : 0 < e → b ^ e.toNat < 0 → result = .num (.float (-infinity))
  finite : e < 0 → ∀ n, result = .num n → n.toFloat.isInf = false

/-- Positive infinity has the sign of the power only if that is positive, and the exponent is not negative. -/
theorem signedInfinity_infinity_iff {b : ℤ} (hb : b ≠ 0) (e : ℤ) :
    SignedInfinity b e (.num (.float infinity)) ↔ 0 ≤ e ∧ 0 < b ^ e.toNat := by
  constructor
  · intro h
    have hexponent : 0 ≤ e := by
      by_contra hnegative
      cases (h.finite (not_le.1 hnegative) _ rfl).symm.trans (show infinity.isInf = true by decide +kernel)
    refine ⟨hexponent, ?_⟩
    rcases hexponent.lt_or_eq with hpositive | rfl
    · by_contra hpower
      have hnegative : b ^ e.toNat < 0 := lt_of_le_of_ne (not_lt.1 hpower) (pow_ne_zero _ hb)
      exact infinity_ne_neg_infinity (h.negative hpositive hnegative)
    · show 0 < b ^ 0
      rw [pow_zero]
      exact one_pos
  · rintro ⟨hexponent, hpower⟩
    exact ⟨fun _ _ => rfl, fun _ h => absurd h hpower.le.not_gt, fun h => absurd h hexponent.not_gt⟩

/-- Under the policy of infinity a power of two integers beyond the limit is taken for positive infinity. That is
infinite with the sign of the power, and finite for a negative exponent, if and only if the exponent is not
negative and the power is positive. The limit is compared in floating point, with the exponent as it is written,
and neither number may be so small that it is taken for zero. -/
theorem solve_beyond_limit (b e : Int64) (bindings : Bindings) (options : Options) (strict : Bool)
    (hpolicy : options.overflow = .infinity) (hb : 2 ≤ b.toInt.natAbs)
    (hlimit : Float.ofInt options.maxExponent.toInt < Float.ofInt |e.toInt|)
    (hbase : (options.clamp (.int b)).isZero = false) (hexponent : (options.clamp (.int e)).isZero = false) :
    ∃ result sheet, solve (.pow (.int b) (.int e)) bindings options strict = .ok (result, sheet) ∧
      result = .num (.float infinity) ∧ sheet.approximate = true ∧
      (SignedInfinity b.toInt e.toInt result ↔ 0 ≤ e.toInt ∧ 0 < b.toInt ^ e.toInt.toNat) := by
  obtain ⟨sheet, hexec, happroximate⟩ := Simplify.exec_power_beyond
    (Expr.simplifyAt 65535) (fun _ => rfl)
    (s := Sheet.new (.pow (.int b) (.int e)) bindings options strict) rfl hpolicy hb hbase hexponent hlimit
  refine ⟨_, sheet, solve_of_simplify rfl hexec (fun n hn => ?_) rfl, rfl, happroximate,
    signedInfinity_infinity_iff (by omega) e.toInt⟩
  cases hn
  rfl

theorem solve_beyond_limit_even :
    ∃ result sheet, solve (.pow (.int (-2)) (.int 200)) {} { overflow := .infinity } true =
      .ok (result, sheet) ∧ sheet.approximate = true ∧ SignedInfinity (-2) 200 result := by
  obtain ⟨result, sheet, hsolve, -, happroximate, hsigned⟩ := solve_beyond_limit (-2) 200 {}
    { overflow := .infinity } true rfl (by decide) (by decide +kernel) (by decide +kernel) (by decide +kernel)
  exact ⟨result, sheet, hsolve, happroximate, hsigned.2 (by decide)⟩

/-- An odd power of a negative number and a power with a negative exponent are taken for positive infinity
too. -/
theorem solve_beyond_limit_unsigned :
    (∃ result sheet, solve (.pow (.int (-2)) (.int 201)) {} { overflow := .infinity } true =
      .ok (result, sheet) ∧ ¬ SignedInfinity (-2) 201 result) ∧
    ∃ result sheet, solve (.pow (.int 2) (.int (-201))) {} { overflow := .infinity } true =
      .ok (result, sheet) ∧ ¬ SignedInfinity 2 (-201) result := by
  constructor
  · obtain ⟨result, sheet, hsolve, hresult⟩ := exists_of_solves
      (show Solves (.pow (.int (-2)) (.int 201)) {} { overflow := .infinity } true
        (fun result _ => !(result == .num (.float (-infinity)))) = true by decide +kernel)
    refine ⟨result, sheet, hsolve, fun h => ?_⟩
    rw [h.negative (by decide) (by decide), Expr.beq_refl] at hresult
    cases hresult
  · obtain ⟨result, sheet, hsolve, hresult⟩ := exists_of_solves
      (show Solves (.pow (.int 2) (.int (-201))) {} { overflow := .infinity } true
        (fun result _ => result.number?.any (·.toFloat.isInf)) = true by decide +kernel)
    refine ⟨result, sheet, hsolve, fun h => ?_⟩
    cases result with
    | num n => cases (h.finite (by decide) n rfl).symm.trans hresult
    | sym _ | sum _ | prod _ | pow _ _ | call _ _ _ _ | deriv _ _ | integral _ _ _ _ => cases hresult

end Workings
