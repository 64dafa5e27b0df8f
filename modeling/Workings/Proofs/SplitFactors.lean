import Workings.Proofs.NegatedProducts
import Workings.Proofs.WorkedProducts

/-!
# Multiplying with a split factor

Where a factor of a product `a * b` is close to a power of ten, the product becomes `p * y - d * y`, and
the small product `d * y` is worked out where it stands, with its sign changed. If it takes one step or
has no trailing zeros, it is found there, and in the end the product takes the place of its factors
(`turns_multiply`). Otherwise it is worked out beside a power of ten, and some change does not find its part
(`adjusts_none`).
-/

namespace Workings

open Work (Turns turns_options turns_changeWith turns_changeWith_none)
open Workings.Expr (wordProduct tenTo)

variable {o : Options} {tree : Expr} {after : Option Expr} {a b c : Int64}

theorem turns_roundAndAdjust?_none {multiply : Number → Number → Work Expr} {x y : Number}
    (h : NearPower.find? (.int o.implicitMultiplicationLimit) x y = none) :
    Turns o tree (roundAndAdjust? multiply x y) none tree := by
  unfold roundAndAdjust?
  refine turns_options.bind ?_
  extract_lets limit
  rw [show limit = .int o.implicitMultiplicationLimit from rfl, h]
  exact .pure none

/-- Two factors in one order or the other. -/
def SameFactors (u v d y : Int64) : Prop :=
  u = d ∧ v = y ∨ u = y ∧ v = d

/-- The small product that is left after a factor is split. -/
theorem Factors.adjusted {near : NearPower} {limit p d y u v w : Int64} (h : Factors o a b c)
    (hsplits : near.Splits limit a b p d y) (hfactors : SameFactors u v d y)
    (hw : w.toInt = u.toInt * v.toInt) : Factors o u v w := by
  have hd := hsplits.distance_lt
  have hy := hsplits.other_lt h.left h.right
  rcases hfactors with ⟨rfl, rfl⟩ | ⟨rfl, rfl⟩
  · exact ⟨hd, hy, hw, h.short⟩
  · exact ⟨hy, hd, hw, h.short⟩

/-- How the tree changes after a factor is split: the product of the distance and the other factor is
worked out where it stands with its sign changed, and then subtracted. -/
inductive Adjusts (o : Options) (multiply : Number → Number → Work Expr) (u v r w c : Int64) :
    Option Expr → Prop
  | fault : Turns o (.sum [.int r, (wordProduct u v).neg]) (multiply (.int u) (.int v)) (Expr.int w)
      none → Adjusts o multiply u v r w c none
  | subtract {between : Expr} {after : Option Expr} :
      Turns o (.sum [.int r, (wordProduct u v).neg]) (multiply (.int u) (.int v)) (Expr.int w) between →
      Turns o between (Work.change (.sum [.int r, (Expr.int w).neg]) (Expr.int c)) () after →
      Adjusts o multiply u v r w c after

/-- Splitting a factor as the whole tree. -/
theorem turns_roundAndAdjust?_some {multiply : Number → Number → Work Expr} {near : NearPower}
    {limit p d y : Int64} (h : Factors o a b c) (hlimit : o.implicitMultiplicationLimit = limit)
    (hfind : NearPower.find? (.int limit) (.int a) (.int b) = some near)
    (hsplits : near.Splits limit a b p d y)
    (hsmall : (Number.int y).scale.1.abs.le (.int limit) = true → after = Expr.int c)
    (hlarge : (Number.int y).scale.1.abs.le (.int limit) = false → ∀ u v r w : Int64,
      SameFactors u v d y → w.toInt = u.toInt * v.toInt → Adjusts o multiply u v r w c after) :
    Turns o (wordProduct a b) (roundAndAdjust? multiply (.int a) (.int b)) (some (.int c)) after := by
  subst hlimit
  obtain ⟨r, w, hrounded, hw, hc⟩ := hsplits.exists_words (hsplits.other_lt h.left h.right) h.value
  have hshape := hsplits.shape
  generalize near.first = first at hshape
  subst hshape
  unfold roundAndAdjust?
  refine turns_options.bind ?_
  extract_lets limit done
  have hdone : ∀ u tree, Turns o tree (done u) (some (.int c)) tree := by
    intro u tree
    unfold done
    rw [h.isProduct.mul_eq]
    exact .pure _
  split
  · rename_i hnone
    rw [hfind] at hnone
    cases hnone
  · rename_i near hsome
    rw [hfind] at hsome
    cases hsome
    rw [h.isProduct.mul_eq, hrounded.mul_eq]
    refine (turns_changeWith (Expr.rewrites_self _ _) none false).bind (.ite (fun hcoefficient => ?_)
      fun hcoefficient => ?_)
    · rw [hsmall hcoefficient]
      exact (turns_changeWith (Expr.rewrites_self _ _) none false).bind (.pure _)
    · extract_lets rounded adjustment finish
      have hadjusts {u v : Int64} (h : Adjusts o multiply u v r w c after) :
          Turns o (.sum [.int r, (wordProduct u v).neg]) (multiply (.int u) (.int v) >>= finish)
            (some (.int c)) after := by
        cases h with
        | fault hnested => exact hnested.halt _
        | subtract hnested hsubtract =>
          refine hnested.bind ?_
          show Turns o _ (Work.change (.sum [.num rounded, .num (-Number.int w)])
            (.num (rounded - Number.int w)) >>= done) _ _
          rw [show rounded - Number.int w = .int c from Number.int_sub hc]
          exact hsubtract.follow (hdone ())
      have hnested := hlarge (Bool.eq_false_of_not_eq_true hcoefficient)
      refine (turns_changeWith (Expr.rewrites_self _ _) none false).bind (.ite (fun hfirst => ?_)
        fun hfirst => ?_)
      · have hadjustment : adjustment = wordProduct d y := if_pos hfirst
        rw [hadjustment]
        exact hadjusts (hnested d y r w (.inl ⟨rfl, rfl⟩) hw)
      · have hadjustment : adjustment = wordProduct y d := if_neg hfirst
        rw [hadjustment]
        exact hadjusts (hnested y d r w (.inr ⟨rfl, rfl⟩) (hw.trans (Int.mul_comm _ _)))

/-- A product without trailing zeros is worked out where it stands. -/
theorem adjusts_plainly {u v w : Int64} (h : Factors o u v w) (hu : u ≠ -1) (hv : v ≠ -1) (hzero : u ≠ 0)
    (hplain : o.takesOneStep (.int u) (.int v) = false →
      (Number.int u).scale = (.int u, 0) ∧ (Number.int v).scale = (.int v, 0)) (r c : Int64) :
    Adjusts o multiplyPlainly u v r w c (Expr.int c) := by
  have hmin : u ≠ Int64.minValue := h.isProduct.left
  have hnested : Turns o (.sum [.int r, (wordProduct u v).neg]) (multiplyPlainly (.int u) (.int v))
      (Expr.int w) (Expr.sum [.int r, (Expr.int w).neg]) := by
    refine turns_multiplyPlainly h (fun _ explanation => ?_) fun htakes => ?_
    · exact turns_changeWith (Expr.rewrites_wordProduct_beside _ _ hu hv hzero hmin) explanation false
    · obtain ⟨hscale, hscale'⟩ := hplain htakes
      exact .unscaled hscale hscale' (Expr.multiplies_beside _ hu hv hzero hmin)
  exact .subtract hnested (turns_changeWith (Expr.rewrites_self _ _) none false)

/-- Where the sign stays behind, no factor is split. -/
theorem NearPower.find?_of_signStays {limit : Int64} (ha : a.toInt.natAbs < 10 ^ 9)
    (hb : b.toInt.natAbs < 10 ^ 9) (h : SignStays a.toInt b.toInt) :
    NearPower.find? (.int limit) (.int a) (.int b) = none := by
  rw [Option.eq_none_iff_forall_ne_some]
  intro near hfind
  obtain ⟨p, d, y, hsplits⟩ := NearPower.exists_splits ha hb hfind
  have hpower (k : Nat) : (0 : Int) < 10 ^ k := Int.pow_pos (by decide)
  have hlow := hsplits.low
  have hsmall := hsplits.small
  have hlarge := hsplits.large
  rcases h with ⟨hzero, k, -, hvalue⟩ | ⟨hzero, k, -, hvalue⟩ <;>
    rcases hsplits.order with ⟨-, hsplit, -⟩ | ⟨-, hsplit, -⟩ <;> have := hpower k <;> omega

theorem ne_of_two_le {m : Int64} (h : 2 ≤ m.toInt.natAbs) : m ≠ 0 ∧ m ≠ 1 ∧ m ≠ -1 := by
  refine ⟨?_, ?_, ?_⟩ <;> rintro rfl <;> exact absurd h (by decide)

/-- What remains after a factor is split takes one step or has no trailing zeros. -/
def PlainlySplit (o : Options) (a b : Int64) : Prop :=
  ∀ (near : NearPower) (p d y : Int64),
    NearPower.find? (.int o.implicitMultiplicationLimit) (.int a) (.int b) = some near →
    near.Splits o.implicitMultiplicationLimit a b p d y →
    (Number.int y).scale.1.abs.le (.int o.implicitMultiplicationLimit) = false →
    ∀ u v : Int64, SameFactors u v d y → o.takesOneStep (.int u) (.int v) = false →
      (Number.int u).scale = (.int u, 0) ∧ (Number.int v).scale = (.int v, 0)

/-- Splitting a factor as the whole tree. -/
theorem turns_roundAndAdjust? {near : NearPower} (h : Factors o a b c)
    (hfind : NearPower.find? (.int o.implicitMultiplicationLimit) (.int a) (.int b) = some near)
    (hplain : PlainlySplit o a b) :
    Turns o (wordProduct a b) (roundAndAdjust? multiplyPlainly (.int a) (.int b)) (some (.int c))
      (Expr.int c) := by
  obtain ⟨p, d, y, hsplits⟩ := NearPower.exists_splits h.left h.right hfind
  refine turns_roundAndAdjust?_some h rfl hfind hsplits (fun _ => rfl)
    fun hlarge u v r w hfactors hw => ?_
  have hsmallProduct := h.adjusted hsplits hfactors hw
  have hnested := hplain near p d y hfind hsplits hlarge u v hfactors
  have hlow := hsplits.low
  have hsmall := hsplits.small
  have hdzero : d ≠ 0 := by
    rintro rfl
    exact absurd hlow (by decide)
  have hdminus : d ≠ -1 := by
    rintro rfl
    exact absurd hlow (by decide)
  have hy : 2 ≤ y.toInt.natAbs := by
    have hbound := hsplits.other_lt h.left h.right
    have hwhole : (Number.int y).Whole := whole_of_natAbs_lt (by omega)
    have hcoefficient := hwhole.lt_natAbs_scale hlarge
    have hle := hwhole.natAbs_scale_le
    change _ ≤ y.toInt.natAbs at hle
    omega
  obtain ⟨hyzero, -, hyminus⟩ := ne_of_two_le hy
  rcases hfactors with ⟨rfl, rfl⟩ | ⟨rfl, rfl⟩
  · exact adjusts_plainly hsmallProduct hdminus hyminus hdzero hnested r c
  · exact adjusts_plainly hsmallProduct hyminus hdminus hyzero hnested r c

/-- Multiplying as the whole tree. -/
theorem turns_multiply (quick : Bool) (h : Factors o a b c)
    (hplain : o.takesOneStep (.int a) (.int b) = false → PlainlySplit o a b) :
    ∃ after : Expr, Turns o (wordProduct a b) (multiply quick (.int a) (.int b)) (.int c) after ∧
      LeftOver o a b c after := by
  unfold multiply
  cases hquick : quick && o.roundAndAdjust with
  | false =>
    obtain ⟨after, hturns, hafter⟩ :=
      turns_multiplyWith_self (fun _ _ => pure none) h (.pure none)
    refine ⟨after, turns_options.bind (.ite (fun hround => ?_) fun _ => hturns), hafter⟩
    rw [hquick] at hround
    cases hround
  | true =>
    suffices hsplit : ∃ after : Expr, Turns o (wordProduct a b)
        (multiplyWith (roundAndAdjust? multiplyPlainly) (.int a) (.int b)) (.int c) after ∧
          LeftOver o a b c after by
      obtain ⟨after, hturns, hafter⟩ := hsplit
      exact ⟨after, turns_options.bind (.ite (fun _ => hturns) fun hnot => absurd hquick hnot), hafter⟩
    cases hfind : NearPower.find? (.int o.implicitMultiplicationLimit) (.int a) (.int b) with
    | none => exact turns_multiplyWith_self _ h (turns_roundAndAdjust?_none hfind)
    | some near =>
      refine ⟨.int c, ?_, fun _ hstays => ?_, fun _ => rfl⟩
      · exact turns_multiplyWith h
          (fun _ explanation => turns_changeWith (Expr.rewrites_self _ _) explanation false)
          fun htakes => .inl (turns_roundAndAdjust? h hfind (hplain htakes))
      · rw [NearPower.find?_of_signStays h.left h.right hstays] at hfind
        cases hfind

/-! ### Beside trailing zeros -/

theorem notUnit_of_two_le {m : Int64} (h : 2 ≤ m.toInt.natAbs) (hwhole : (Number.int m).Whole) :
    Expr.NotUnit m :=
  ⟨hwhole, (ne_of_two_le h).2.1, (ne_of_two_le h).2.2⟩

theorem two_le_natAbs_mul {x y : Int} (hx : 2 ≤ x.natAbs) (hy : 2 ≤ y.natAbs) : 2 ≤ (x * y).natAbs := by
  rw [Int.natAbs_mul]
  exact le_trans hx (Nat.le_mul_of_pos_right _ (by omega))

/-- A product with trailing zeros is worked out without them. With its sign changed it is not found, or it
is found up to its sign, and then it is not found for the subtraction. -/
theorem adjusts_none {u v w : Int64} (h : Factors o u v w)
    (hu : 2 ≤ (Number.int u).scale.1.toInt.natAbs) (hv : 2 ≤ (Number.int v).scale.1.toInt.natAbs)
    (htakes : o.takesOneStep (.int u) (.int v) = false)
    (hzeros : (Number.int u).scale.2 ≠ 0 ∨ (Number.int v).scale.2 ≠ 0) (r c : Int64) :
    Adjusts o multiplyPlainly u v r w c none := by
  have hproduct := h.isProduct
  have hule := hproduct.left.natAbs_scale_le
  have hvle := hproduct.right.natAbs_scale_le
  obtain ⟨m, n, d, i, j, hscaleu, hscalev, hd, hm, hn⟩ := hproduct.exists_coefficients
  have hdiffer : u ≠ m ∨ v ≠ n := by
    by_contra hsame
    obtain ⟨rfl, rfl⟩ := not_or.1 hsame |>.imp not_not.1 not_not.1
    rw [hproduct.left.scale_of_self (by rw [hscaleu]), hproduct.right.scale_of_self (by rw [hscalev])]
      at hzeros
    exact hzeros.elim (· rfl) (· rfl)
  rw [hscaleu] at hu hule
  rw [hscalev] at hv hvle
  change 2 ≤ m.toInt.natAbs at hu
  change 2 ≤ n.toInt.natAbs at hv
  have hmunit := notUnit_of_two_le hu hd.left
  have hnunit := notUnit_of_two_le hv hd.right
  have hmzero := (ne_of_two_le hu).1
  obtain ⟨huzero, -, huminus⟩ := ne_of_two_le (hu.trans hule)
  obtain ⟨-, -, hvminus⟩ := ne_of_two_le (hv.trans hvle)
  have hsplit := Expr.rewrites_wordProduct_beside
    (.prod [.int m, .int n, tenTo (Int64.ofInt (i + j))]) (.int r) huminus hvminus huzero hproduct.left
  have hnested {after : Option Expr} (hlength : AtLength u v w
      (.sum [.int r, (wordProduct u v).neg]) after) :
      Turns o (.sum [.int r, (wordProduct u v).neg]) (multiplyPlainly (.int u) (.int v)) (Expr.int w)
        after := by
    refine turns_multiplyPlainly h (fun hone => ?_) fun _ => hlength
    rw [htakes] at hone
    cases hone
  by_cases hsigns : m.toInt < 0 ↔ n.toInt < 0
  · have hvalue : d.toInt = m.toInt * n.toInt := hd.value
    have hpos : 0 < d.toInt := by
      rw [hvalue]
      rcases lt_or_gt_of_ne (show m.toInt ≠ 0 by omega) with hneg | hpos
      · exact Int.mul_pos_of_neg_of_neg hneg (hsigns.1 hneg)
      · exact Int.mul_pos hpos (by omega)
    have hdwhole : (Number.int d).Whole := by
      rintro rfl
      exact absurd hpos (by decide)
    have hdunit := notUnit_of_two_le (hvalue ▸ two_le_natAbs_mul hu hv) hdwhole
    obtain ⟨hwzero, hwone, -⟩ :=
      ne_of_two_le (h.value ▸ two_le_natAbs_mul (hu.trans hule) (hv.trans hvle))
    exact .subtract (hnested (.scaled hscaleu hscalev hdiffer hd hsplit
        (.found (Expr.multiplies_stray hmunit hnunit hmzero hsigns _ _)
          (Expr.rewrites_scaled_stray hdunit hpos _ _ _))))
      (turns_changeWith_none (Expr.not_has_stray _ hwone hwzero) _ none false)
  · exact .fault (hnested (.scaled hscaleu hscalev hdiffer hd hsplit
      (.missing (Expr.not_has_shifted hmunit hnunit hmzero hsigns _ _))))

end Workings
