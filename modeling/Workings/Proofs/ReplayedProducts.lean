import Workings.Proofs.SplitFactors

/-!
# Worked products replay

On a strict sheet the changes of a worked multiplication are found one after the other, each in the tree
that the last one left, and in the end the product stands in the place of its factors. With compact
products there is one exception (`multiply_replays_compact_iff`): a sign stays beside a zero. Without them
there is another one (`multiply_replays_elaborate_iff`): where a factor is split, the other one must not
have trailing zeros that are taken out of the product that remains.
-/

namespace Workings

open Work (Turns turns_options)
open Workings.Expr (wordProduct)

variable {o : Options} {a b c : Int64}

/-! ### Products of integers one of which is small -/

theorem plainlySplit_of_compact (h : Factors o a b c) (hcompact : o.compactMultiplication = true) :
    PlainlySplit o a b := by
  intro near p d y hfind hsplits hlarge u v hfactors htakes
  have hlow := hsplits.low
  have hsmall := hsplits.small
  have hdistance := hsplits.distance_lt
  have hother := hsplits.other_lt h.left h.right
  have hwhole : (Number.int d).Whole := whole_of_natAbs_lt (by omega)
  have hwhole' : (Number.int y).Whole := whole_of_natAbs_lt (by omega)
  have hd : (d.toInt.natAbs : Int) ≤ o.implicitMultiplicationLimit.toInt := by omega
  rcases hfactors with ⟨rfl, rfl⟩ | ⟨rfl, rfl⟩
  · obtain ⟨-, hlarge, -⟩ := (takesOneStep_eq_false_iff hwhole hwhole').1 htakes
    exact absurd (hlarge hcompact).1 (not_lt.2 hd)
  · obtain ⟨-, hlarge, -⟩ := (takesOneStep_eq_false_iff hwhole' hwhole).1 htakes
    exact absurd (hlarge hcompact).2 (not_lt.2 hd)

theorem scale_of_zeroAndOppositePower (ha : (Number.int a).Whole) (hb : (Number.int b).Whole)
    (h : ZeroAndOppositePower a.toInt b.toInt) :
    (Number.int a).scale.1 = .int 0 ∧ (Number.int b).scale.1 = .int (-1) := by
  obtain ⟨hzero, k, -, hvalue⟩ := h
  refine ⟨?_, by rw [(hb.scale_eq_minusOne_iff k).2 hvalue]⟩
  rw [Number.scale, if_pos (ha.isZero_iff.2 hzero)]
  rfl

/-- With compact multiplication the sign stays behind only below a negative limit. -/
theorem takesOneStep_of_signStays (ha : (Number.int a).Whole) (hb : (Number.int b).Whole)
    (hcompact : o.compactMultiplication = true) (hstays : SignStays a.toInt b.toInt) :
    o.takesOneStep (.int a) (.int b) = false ↔ o.implicitMultiplicationLimit < 0 ∧
      o.leavesToCalculator .multiplication (.int a) (.int b) (some (.int a * .int b)) = false := by
  rw [Int64.lt_iff_toInt_lt, takesOneStep_eq_false_iff ha hb]
  change _ ↔ o.implicitMultiplicationLimit.toInt < 0 ∧ _
  constructor
  · rintro ⟨hleaves, hlarge, -⟩
    obtain ⟨hlarge, hlarge'⟩ := hlarge hcompact
    refine ⟨?_, hleaves⟩
    rcases hstays with ⟨hzero, -⟩ | ⟨hzero, -⟩ <;> omega
  · rintro ⟨hlimit, hleaves⟩
    refine ⟨hleaves, fun _ => ⟨by omega, by omega⟩, ?_⟩
    have hle (n : Number) (hn : n.Whole) : n.abs.le (.int o.implicitMultiplicationLimit) = false := by
      rw [hn.abs_le, decide_eq_false_iff_not]
      omega
    unfold areSimple
    rcases hstays with h | h
    · obtain ⟨hscale, hscale'⟩ := scale_of_zeroAndOppositePower ha hb h
      rw [hscale, hscale', hle (.int 0) (by decide)]
      rfl
    · obtain ⟨hscale, hscale'⟩ := scale_of_zeroAndOppositePower hb ha h
      rw [hscale, hscale', hle (.int (-1)) (by decide)]
      rfl

theorem factors_ofInt {a b : Int} (ha : a.natAbs < 10 ^ 9) (hb : b.natAbs < 10 ^ 9)
    (hthreshold : ∀ threshold ∈ o.magnitudeThreshold, 18 ≤ threshold) :
    (Int64.ofInt a).toInt = a ∧ (Int64.ofInt b).toInt = b ∧
      Factors o (.ofInt a) (.ofInt b) (.ofInt (a * b)) := by
  have ha' : (Int64.ofInt a).toInt = a := toInt_ofInt ⟨by omega, by omega⟩
  have hb' : (Int64.ofInt b).toInt = b := toInt_ofInt ⟨by omega, by omega⟩
  have hbound : (a * b).natAbs < 2 ^ 63 := by
    rw [Int.natAbs_mul]
    exact lt_of_le_of_lt (Nat.mul_le_mul ha.le hb.le) (by decide)
  have hc : (Int64.ofInt (a * b)).toInt = a * b := toInt_ofInt ⟨by omega, by omega⟩
  exact ⟨ha', hb', by rwa [ha'], by rwa [hb'], by rw [hc, ha', hb'], hthreshold⟩

/-- A multiplication with compact products replays: whatever the other options are, the product ends in
the place of its factors, unless one of them is zero, the other one the opposite of a power of ten, and
even this product is worked out at length, as the limit is negative. -/
theorem multiply_replays_compact_iff (quick : Bool) {a b : Int} (ha : a.natAbs < 10 ^ 9)
    (hb : b.natAbs < 10 ^ 9) {s : Sheet} (hstrict : s.strict = true)
    (htree : s.tree = productOfNumbers (.int (.ofInt a)) (.int (.ofInt b)))
    (hcompact : s.options.compactMultiplication = true)
    (hthreshold : ∀ threshold ∈ s.options.magnitudeThreshold, 18 ≤ threshold) :
    (∃ e t, Work.exec (multiply quick (.int (.ofInt a)) (.int (.ofInt b))) s = (.ok e, t) ∧
      t.tree = .int (.ofInt (a * b))) ↔
    ¬ (s.options.implicitMultiplicationLimit < 0 ∧ SignStays a b ∧
      s.options.leavesToCalculator .multiplication (.int (.ofInt a)) (.int (.ofInt b))
        (some (.int (.ofInt (a * b)))) = false) := by
  obtain ⟨hvalue, hvalue', hfactors⟩ := factors_ofInt ha hb hthreshold
  have hproduct := hfactors.isProduct
  obtain ⟨after, hturns, hafter⟩ := turns_multiply quick hfactors
    fun _ => plainlySplit_of_compact hfactors hcompact
  rw [hturns.leaves_iff ⟨rfl, hstrict, htree⟩, Option.some.injEq]
  have hsign := takesOneStep_of_signStays (o := s.options) hproduct.left hproduct.right hcompact
  rw [hproduct.mul_eq, hvalue, hvalue'] at hsign
  constructor
  · rintro rfl ⟨hlimit, hstays, hleaves⟩
    have hstays' : SignStays (Int64.ofInt a).toInt (Int64.ofInt b).toInt := by
      rwa [hvalue, hvalue']
    cases hafter.sign ((hsign hstays).2 ⟨hlimit, hleaves⟩) hstays'
  · intro hnot
    refine hafter.value ?_
    rw [hvalue, hvalue', or_iff_not_imp_right, not_not]
    intro hstays
    by_contra htakes
    obtain ⟨hlimit, hleaves⟩ := (hsign hstays).1 (Bool.eq_false_of_not_eq_true htakes)
    exact hnot ⟨hlimit, hstays, hleaves⟩

/-- `98 * 130` is split into `100 * 130 - 2 * 130`. -/
theorem multiply_replays_compact_iff_split :
    ∃ e t, Work.exec (multiply true (.int (.ofInt 98)) (.int (.ofInt 130)))
        (Sheet.new (productOfNumbers (.int (.ofInt 98)) (.int (.ofInt 130))) {} {} true) = (.ok e, t) ∧
      t.tree = .int (.ofInt (98 * 130)) :=
  (multiply_replays_compact_iff true (by decide) (by decide) rfl rfl rfl (by decide)).2
    fun hstays => absurd hstays.1 (by decide)

/-- Below a negative limit `0 * -10` is worked out as `0 * -1 * 10 ^ 1`, of which `0 * -1` is left. -/
theorem multiply_leaves_sign :
    ∃ t, Work.exec (multiply true (.int 0) (.int (-10)))
        (Sheet.new (productOfNumbers (.int 0) (.int (-10))) {}
          { implicitMultiplicationLimit := -1 } true) = (.ok (.int 0), t) ∧
      t.tree = .prod [.int 0, .int (-1)] ∧ t.tree ≠ .int 0 := by
  generalize ho : ({ implicitMultiplicationLimit := -1 } : Options) = o
  have hfactors : Factors o 0 (-10) 0 :=
    ⟨by decide, by decide, by decide, by subst ho; decide⟩
  have hcompact : o.compactMultiplication = true := by
    rw [← ho]
  obtain ⟨after, hturns, hafter⟩ := turns_multiply true hfactors
    fun _ => plainlySplit_of_compact hfactors hcompact
  have htakes : o.takesOneStep (.int 0) (.int (-10)) = false := by
    subst ho
    decide
  generalize hs : Sheet.new (productOfNumbers (.int 0) (.int (-10))) {} o true = s
  have hstands : s.Stands o (wordProduct 0 (-10)) := by
    subst hs
    exact ⟨rfl, rfl, rfl⟩
  rcases hexec : Work.exec (multiply true (.int 0) (.int (-10))) s with ⟨result, t⟩
  have hrun := hexec ▸ hturns.run s hstands
  cases hrun with
  | ok stands _ =>
    have htree := stands.tree.trans (hafter.sign htakes (.inl ⟨rfl, 1, by decide, by decide⟩))
    refine ⟨t, rfl, htree, ?_⟩
    rw [htree]
    exact Expr.noConfusion

/-! ### A split factor beside trailing zeros -/

/-- A factor is split, and the product that remains is worked out at length without the trailing zeros of
the other factor. -/
def SplitsBesideZeros (limit a b : Int64) : Prop :=
  ∃ near : NearPower, NearPower.find? (.int limit) (.int a) (.int b) = some near ∧
    near.distance.scale.1 ≠ .int 1 ∧ near.other.scale.1.abs.le (.int limit) = false ∧
    near.other.scale.2 ≠ 0

/-- A number below the default limit is `10`, `1` or has no trailing zeros. -/
theorem scale_of_small {d : Int64} (hlow : 1 ≤ d.toInt) (hsmall : d.toInt < 12)
    (hone : (Number.int d).scale.1 ≠ .int 1) : (Number.int d).scale = (.int d, 0) := by
  have hwhole : (Number.int d).Whole := whole_of_natAbs_lt (by omega)
  obtain ⟨k, hexponent, hcoefficient, hvalue, -⟩ := hwhole.scale_eq
  change _ = d.toInt at hvalue
  refine hwhole.scale_of_exponent ?_
  rw [hexponent, Int.natCast_eq_zero]
  by_contra hk
  have hten : (10 : Int) ^ 1 ≤ 10 ^ k := pow_le_pow_right₀ (by decide) (by omega)
  have hpos : 0 < (Number.int d).scale.1.toInt := by
    by_contra hnot
    nlinarith
  have hle : (Number.int d).scale.1.toInt ≤ 1 := by
    by_contra hnot
    nlinarith
  exact hone (hcoefficient.eq_of_toInt (show Number.Whole (.int 1) by decide)
    (show _ = (1 : Int) by omega))

theorem plainlySplit_of_not_splitsBesideZeros (h : Factors o a b c)
    (hlimit : o.implicitMultiplicationLimit = 12) (hnot : ¬ SplitsBesideZeros 12 a b) :
    PlainlySplit o a b := by
  intro near p d y hfind hsplits hlarge u v hfactors htakes
  rw [hlimit] at hfind hlarge
  have hy := hsplits.other_lt h.left h.right
  have hwhole : (Number.int y).Whole := whole_of_natAbs_lt (by omega)
  have hsmall : d.toInt < 12 := by
    have hsmall := hsplits.small
    rwa [hlimit] at hsmall
  have hones : (Number.int d).scale.1 ≠ .int 1 := by
    obtain ⟨hone, hone'⟩ := coefficients_ne_one htakes
    rcases hfactors with ⟨rfl, -⟩ | ⟨-, rfl⟩ <;> assumption
  have hd := scale_of_small hsplits.low hsmall hones
  have hother : (Number.int y).scale = (.int y, 0) := by
    refine hwhole.scale_of_exponent ?_
    by_contra hzeros
    refine hnot ⟨near, hfind, ?_⟩
    rw [hsplits.shape]
    exact ⟨hones, hlarge, hzeros⟩
  rcases hfactors with ⟨rfl, rfl⟩ | ⟨rfl, rfl⟩
  · exact ⟨hd, hother⟩
  · exact ⟨hother, hd⟩

theorem areSimple_eq_false {m n limit : Int64} (hm : (Number.int m).Whole) (hn : (Number.int n).Whole)
    (hlarge : limit.toInt < m.toInt.natAbs ∨ limit.toInt < n.toInt.natAbs) (hmone : m ≠ 1)
    (hnone : n ≠ 1) : areSimple (.int m) (.int n) limit = false := by
  have hone (k : Int64) (hk : k ≠ 1) : (Number.int k == 1) = false :=
    show (k == 1) = false from beq_eq_false_iff_ne.2 hk
  unfold areSimple
  rw [hm.abs_le, hn.abs_le, hone m hmone, hone n hnone, Bool.or_false, Bool.or_false,
    ← Bool.decide_and, decide_eq_false_iff_not]
  change ¬ ((m.toInt.natAbs : Int) ≤ _ ∧ (n.toInt.natAbs : Int) ≤ _)
  omega

theorem areSimple_scale_eq_false {x y limit : Int64} (hx : (Number.int x).Whole)
    (hy : (Number.int y).Whole) (hlimit : 1 ≤ limit.toInt) (hone : (Number.int x).scale.1 ≠ .int 1)
    (hlarge : (Number.int y).scale.1.abs.le (.int limit) = false) :
    areSimple (Number.int x).scale.1 (Number.int y).scale.1 limit = false ∧
      areSimple (Number.int y).scale.1 (Number.int x).scale.1 limit = false := by
  obtain ⟨-, -, hxwhole, -⟩ := hx.scale_eq
  obtain ⟨-, -, hywhole, -⟩ := hy.scale_eq
  obtain ⟨m, hm⟩ := hxwhole.exists_int
  obtain ⟨n, hn⟩ := hywhole.exists_int
  rw [hm] at hxwhole hone ⊢
  have hlt := hy.lt_natAbs_scale hlarge
  rw [hn] at hywhole hlt ⊢
  change limit.toInt < n.toInt.natAbs at hlt
  have hmone : m ≠ 1 := fun h => hone (congrArg Number.int h)
  have hnone : n ≠ 1 := by
    rintro rfl
    exact absurd hlt (not_lt.2 hlimit)
  exact ⟨areSimple_eq_false hxwhole hywhole (.inr hlt) hmone hnone,
    areSimple_eq_false hywhole hxwhole (.inl hlt) hnone hmone⟩

/-- Where the sign would stay behind, the product is simple under the default limit. -/
theorem areSimple_of_signStays (ha : (Number.int a).Whole) (hb : (Number.int b).Whole)
    (h : SignStays a.toInt b.toInt) :
    areSimple (Number.int a).scale.1 (Number.int b).scale.1 12 = true := by
  rcases h with h | h
  · obtain ⟨hscale, hscale'⟩ := scale_of_zeroAndOppositePower ha hb h
    rw [hscale, hscale']
    decide
  · obtain ⟨hscale, hscale'⟩ := scale_of_zeroAndOppositePower hb ha h
    rw [hscale, hscale']
    decide

/-- Whether a product is left to the calculator depends on its factors only, as it has not too many
digits itself. -/
theorem leavesToCalculator_default (h : Factors o a b c) (hcalculator : o.calculator = {}) :
    o.leavesToCalculator .multiplication (.int a) (.int b) (some (.int c)) =
      decide (8 < max (Number.int a).complexity (Number.int b).complexity) := by
  have hbound : c.toInt.natAbs < 10 ^ 28 := by
    rw [h.value, Int.natAbs_mul]
    exact lt_of_le_of_lt (Nat.mul_le_mul h.left.le h.right.le) (by decide)
  have hresult : (Number.int c).complexity ≤ 28 :=
    (Nat.length_toDigits_le_iff (by decide) (by decide)).2 hbound
  unfold Options.leavesToCalculator
  rw [hcalculator]
  show (true && (decide (8 < _) || decide (28 < (Number.int c).complexity))) = _
  rw [decide_eq_false (not_lt.2 hresult), Bool.or_false, Bool.true_and]
  rfl

/-- What is worked out at length at the default options. -/
theorem takesOneStep_default (h : Factors o a b c) (hcompact : o.compactMultiplication = false)
    (hlimit : o.implicitMultiplicationLimit = 12) :
    o.takesOneStep (.int a) (.int b) = false ↔
      o.leavesToCalculator .multiplication (.int a) (.int b) (some (.int c)) = false ∧
      areSimple (Number.int a).scale.1 (Number.int b).scale.1 12 = false := by
  rw [takesOneStep_eq_false_iff h.isProduct.left h.isProduct.right, h.isProduct.mul_eq, hcompact, hlimit]
  simp

/-- The default options, except that products are not compact. -/
structure Elaborate (o : Options) : Prop where
  round : o.roundAndAdjust = true
  compact : o.compactMultiplication = false
  limit : o.implicitMultiplicationLimit = 12
  calculator : o.calculator = {}

/-- After a factor is split beside trailing zeros, the product that remains is not found or leaves a
sign. -/
theorem adjusts_none_of_zeros {d y u v w : Int64} (ho : Elaborate o) (h : Factors o u v w)
    (hfactors : SameFactors u v d y) (hlow : 1 ≤ d.toInt) (hsmall : d.toInt < 12)
    (hone : (Number.int d).scale.1 ≠ .int 1)
    (hlarge : (Number.int y).scale.1.abs.le (.int 12) = false)
    (hzeros : (Number.int y).scale.2 ≠ 0) (hdigits : (Number.int y).complexity ≤ 8) (r c : Int64) :
    Adjusts o multiplyPlainly u v r w c none := by
  have hd : d.toInt.natAbs < 10 ^ 8 := by omega
  have hdwhole : (Number.int d).Whole := whole_of_natAbs_lt (by omega)
  have hywhole : (Number.int y).Whole := by
    rcases hfactors with ⟨-, rfl⟩ | ⟨rfl, -⟩
    · exact h.isProduct.right
    · exact h.isProduct.left
  have hsimple := areSimple_scale_eq_false hdwhole hywhole (by decide) hone hlarge
  have hdcomplexity : (Number.int d).complexity ≤ 8 :=
    (Nat.length_toDigits_le_iff (by decide) (by decide)).2 hd
  have hdcoefficient : 2 ≤ (Number.int d).scale.1.toInt.natAbs := by
    have hscale := scale_of_small hlow hsmall hone
    have hne : d.toInt ≠ 1 := by
      intro hd
      obtain rfl : d = 1 := Int64.toInt_inj.1 hd
      exact hone (by rw [hscale])
    rw [hscale]
    change 2 ≤ d.toInt.natAbs
    omega
  have hycoefficient : 2 ≤ (Number.int y).scale.1.toInt.natAbs := by
    have hcoefficient := hywhole.lt_natAbs_scale hlarge
    change (12 : Int) < _ at hcoefficient
    omega
  have htakes (hboth : areSimple (Number.int u).scale.1 (Number.int v).scale.1 12 = false)
      (hcomplexity : max (Number.int u).complexity (Number.int v).complexity ≤ 8) :
      o.takesOneStep (.int u) (.int v) = false := by
    refine (takesOneStep_default h ho.compact ho.limit).2 ⟨?_, hboth⟩
    rw [leavesToCalculator_default h ho.calculator, decide_eq_false_iff_not]
    omega
  rcases hfactors with ⟨rfl, rfl⟩ | ⟨rfl, rfl⟩
  · exact adjusts_none h hdcoefficient hycoefficient (htakes hsimple.1 (max_le hdcomplexity hdigits))
      (.inr hzeros) r c
  · exact adjusts_none h hycoefficient hdcoefficient (htakes hsimple.2 (max_le hdigits hdcomplexity))
      (.inl hzeros) r c

/-- A factor that is split beside trailing zeros: the multiplication ends in a fault. -/
theorem turns_multiply_none (ho : Elaborate o) (h : Factors o a b c)
    (hleaves : o.leavesToCalculator .multiplication (.int a) (.int b) (some (.int c)) = false)
    (hbeside : SplitsBesideZeros 12 a b) :
    Turns o (wordProduct a b) (multiply true (.int a) (.int b)) (Expr.int c) none := by
  obtain ⟨near, hfind, hdistance, hother, hzeros⟩ := hbeside
  obtain ⟨p, d, y, hsplits⟩ := NearPower.exists_splits h.left h.right hfind
  rw [hsplits.shape] at hdistance hother hzeros
  change (Number.int d).scale.1 ≠ .int 1 at hdistance
  change (Number.int y).scale.1.abs.le (.int 12) = false at hother
  change (Number.int y).scale.2 ≠ 0 at hzeros
  have hproduct := h.isProduct
  have hy := hsplits.other_lt h.left h.right
  have hsmall : d.toInt < 12 := hsplits.small
  have hlow := hsplits.low
  have hywhole : (Number.int y).Whole := whole_of_natAbs_lt (by omega)
  have htakes : o.takesOneStep (.int a) (.int b) = false := by
    refine (takesOneStep_default h ho.compact ho.limit).2 ⟨hleaves, ?_⟩
    rcases hsplits.order with ⟨-, hsplit, rfl⟩ | ⟨-, hsplit, rfl⟩
    · exact (areSimple_scale_eq_false hproduct.left hywhole (by decide)
        (hsplits.scale_ne_one hproduct.left hsplit) hother).1
    · exact (areSimple_scale_eq_false hproduct.right hywhole (by decide)
        (hsplits.scale_ne_one hproduct.right hsplit) hother).2
  have hdigits : (Number.int y).complexity ≤ 8 := by
    rw [leavesToCalculator_default h ho.calculator, decide_eq_false_iff_not, not_lt] at hleaves
    rcases hsplits.order with ⟨-, -, rfl⟩ | ⟨-, -, rfl⟩
    · exact (le_max_right _ _).trans hleaves
    · exact (le_max_left _ _).trans hleaves
  have hround : Turns o (wordProduct a b) (roundAndAdjust? multiplyPlainly (.int a) (.int b))
      (some (.int c)) none := by
    refine turns_roundAndAdjust?_some h ho.limit hfind hsplits (fun hcoefficient => ?_)
      fun _ u v r w hfactors hw => ?_
    · rw [hother] at hcoefficient
      cases hcoefficient
    · exact adjusts_none_of_zeros ho (h.adjusted hsplits hfactors hw) hfactors hlow hsmall hdistance
        hother hzeros hdigits r c
  unfold multiply
  refine turns_options.bind (.ite (fun _ => ?_) fun hnot => ?_)
  · refine turns_multiplyWith h (fun hone => ?_) fun _ => .inl hround
    rw [htakes] at hone
    cases hone
  · rw [ho.round] at hnot
    exact absurd rfl hnot

/-- A multiplication at the default options, except that products are not compact, replays, unless a
factor is split and the other one has trailing zeros. Then a change does not find its part. -/
theorem multiply_replays_elaborate_iff {a b : Int} (ha : a.natAbs < 10 ^ 9) (hb : b.natAbs < 10 ^ 9)
    {s : Sheet} (hstrict : s.strict = true)
    (htree : s.tree = productOfNumbers (.int (.ofInt a)) (.int (.ofInt b)))
    (hoptions : s.options = { compactMultiplication := false }) :
    (∃ e t, Work.exec (multiply true (.int (.ofInt a)) (.int (.ofInt b))) s = (.ok e, t) ∧
      t.tree = .int (.ofInt (a * b))) ↔
    ¬ (s.options.leavesToCalculator .multiplication (.int (.ofInt a)) (.int (.ofInt b))
        (some (.int (.ofInt (a * b)))) = false ∧
      SplitsBesideZeros 12 (.ofInt a) (.ofInt b)) := by
  have helaborate : Elaborate s.options := by
    rw [hoptions]
    exact ⟨rfl, rfl, rfl, rfl⟩
  obtain ⟨-, -, hfactors⟩ := factors_ofInt ha hb (o := s.options) (by rw [hoptions]; decide)
  have hproduct := hfactors.isProduct
  constructor
  · rintro hreplays ⟨hleaves, hbeside⟩
    have hturns := turns_multiply_none helaborate hfactors hleaves hbeside
    cases (hturns.leaves_iff ⟨rfl, hstrict, htree⟩).1 hreplays
  · intro hnot
    have htakes := takesOneStep_default hfactors helaborate.compact helaborate.limit
    obtain ⟨after, hturns, hafter⟩ := turns_multiply true hfactors fun hlong =>
      plainlySplit_of_not_splitsBesideZeros hfactors helaborate.limit
        fun hbeside => hnot ⟨(htakes.1 hlong).1, hbeside⟩
    rw [hturns.leaves_iff ⟨rfl, hstrict, htree⟩, Option.some.injEq]
    refine hafter.value ?_
    rw [or_iff_not_imp_right, not_not]
    intro hstays
    by_contra hlong
    have hsimple := (htakes.1 (Bool.eq_false_of_not_eq_true hlong)).2
    rw [areSimple_of_signStays hproduct.left hproduct.right hstays] at hsimple
    cases hsimple

/-- `97 * 35` is split into `100 * 35 - 3 * 35`, of which `3 * 35` is worked out at length. -/
theorem multiply_replays_elaborate_iff_split :
    ∃ e t, Work.exec (multiply true (.int (.ofInt 97)) (.int (.ofInt 35)))
        (Sheet.new (productOfNumbers (.int (.ofInt 97)) (.int (.ofInt 35))) {}
          { compactMultiplication := false } true) = (.ok e, t) ∧
      t.tree = .int (.ofInt (97 * 35)) := by
  refine (multiply_replays_elaborate_iff (by decide) (by decide) rfl rfl rfl).2 fun hbeside => ?_
  obtain ⟨-, near, hfind, -, -, hzeros⟩ := hbeside
  obtain rfl : (⟨.int 100, .int 3, .int 35, true⟩ : NearPower) = near := Option.some.inj hfind
  exact hzeros (by decide)

/-- `98 * 130` is split into `13000 - 2 * 130`, of which `2 * 130` is worked out as `2 * 13 * 10 ^ 1`. -/
theorem multiply_splits_beside_zeros :
    ∃ fault t, Work.exec (multiply true (.int 98) (.int 130))
      (Sheet.new (productOfNumbers (.int 98) (.int 130)) {}
        { compactMultiplication := false } true) = (.error fault, t) := by
  generalize ho : ({ compactMultiplication := false } : Options) = o
  have hfactors : Factors o 98 130 12740 :=
    ⟨by decide, by decide, by decide, by subst ho; decide⟩
  have helaborate : Elaborate o := by
    subst ho
    exact ⟨rfl, rfl, rfl, rfl⟩
  have hleaves : o.leavesToCalculator .multiplication (.int 98) (.int 130) (some (.int 12740)) =
      false := by
    subst ho
    decide
  have hturns := turns_multiply_none helaborate hfactors hleaves
    ⟨⟨.int 100, .int 2, .int 130, true⟩, rfl,
      fun hone => absurd (congrArg Number.toInt hone) (by decide), by decide, by decide⟩
  generalize hs : Sheet.new (productOfNumbers (.int 98) (.int 130)) {} o true = s
  have hstands : s.Stands o (wordProduct 98 130) := by
    subst hs
    exact ⟨rfl, rfl, rfl⟩
  rcases hexec : Work.exec (multiply true (.int 98) (.int 130)) s with ⟨result, t⟩
  have hrun := hexec ▸ hturns.run s hstands
  cases hrun with
  | fault => exact ⟨_, t, rfl⟩

end Workings
