import Workings.Proofs.NearPowers
import Workings.Proofs.Turning

/-!
# Ways of multiplying

A product takes one step, or a factor close to a power of ten is split, or it is worked out at length
(`turns_multiplyWith`). Where the product is the whole tree its changes are found one after the other,
each in the tree that the last one left, and the product is left in the end, unless one factor is zero and
the other one the opposite of a power of ten: then a sign stays beside the zero (`LeftOver`).
-/

namespace Workings

open Work (Turns turns_options turns_changeWith turns_changeWith_none)
open Workings.Expr (wordProduct tenTo BesideMinusOne)

/-- The product of words of at most nine digits, which is not long enough to be estimated. -/
structure Factors (o : Options) (a b c : Int64) : Prop where
  left : a.toInt.natAbs < 10 ^ 9
  right : b.toInt.natAbs < 10 ^ 9
  value : c.toInt = a.toInt * b.toInt
  short : ∀ threshold ∈ o.magnitudeThreshold, 18 ≤ threshold

variable {o : Options} {before tree : Expr} {after : Option Expr} {a b c : Int64}

namespace Factors

theorem isProduct (h : Factors o a b c) : IsProduct (.int a) (.int b) c :=
  ⟨whole_of_natAbs_lt (h.left.trans (by decide)), whole_of_natAbs_lt (h.right.trans (by decide)), h.value⟩

theorem size_lt (h : Factors o a b c) : (Number.int a).size * (Number.int b).size < 2 ^ 63 := by
  refine lt_of_le_of_lt (Nat.mul_le_mul (?_ : _ ≤ 10 ^ 9) (?_ : _ ≤ 10 ^ 9)) (by decide)
  · exact max_le (by decide) h.left.le
  · exact max_le (by decide) h.right.le

theorem complexity_le (h : Factors o a b c) : ∀ threshold ∈ o.magnitudeThreshold,
    (Number.int a).complexity + (Number.int b).complexity ≤ threshold := by
  intro threshold hthreshold
  have ha := complexity_int_le h.left
  have hb := complexity_int_le h.right
  have hshort := h.short threshold hthreshold
  omega

end Factors

/-- Work leaves no other tree than the one that it turns the tree into. -/
theorem Work.Turns.leaves_iff {α : Type} {w : Work α} {result : α} {s : Sheet}
    (h : Turns o before w result after) (hs : s.Stands o before) :
    (∃ e t, Work.exec w s = (.ok e, t) ∧ t.tree = tree) ↔ after = some tree := by
  rcases hexec : Work.exec w s with ⟨outcome, t⟩
  have hrun := hexec ▸ h.run s hs
  cases hrun with
  | ok stands _ =>
    rw [Option.some.injEq]
    refine ⟨?_, fun hafter => ⟨_, t, rfl, stands.tree.trans hafter⟩⟩
    rintro ⟨e, u, hsame, hu⟩
    cases hsame
    exact stands.tree.symm.trans hu
  | fault => simp

/-! ### Which way is taken -/

/-- A product that is short enough is not estimated. -/
theorem turns_estimateProduct? (h : Factors o a b c) :
    Turns o tree (estimateProduct? (.int a) (.int b)) none tree := by
  unfold estimateProduct?
  refine turns_options.bind ?_
  split
  · exact .pure none
  · rename_i threshold hthreshold
    extract_lets digits estimate
    refine .ite (fun _ => .pure none) fun hlong => ?_
    exact absurd (h.complexity_le threshold hthreshold) hlong

/-- Whether a product takes one step, as it is left to the calculator or simple. -/
def Options.takesOneStep (o : Options) (a b : Number) : Bool :=
  let limit := o.implicitMultiplicationLimit
  o.leavesToCalculator .multiplication a b (some (a * b)) ||
    (o.compactMultiplication && a.isInteger && b.isInteger &&
        (a.abs.le (.int limit) || b.abs.le (.int limit)) ||
      areSimple a.scale.1 b.scale.1 limit)

/-- What is neither left to the calculator nor simple takes more than one step. -/
theorem takesOneStep_eq_false_iff (ha : (Number.int a).Whole) (hb : (Number.int b).Whole) :
    o.takesOneStep (.int a) (.int b) = false ↔
      o.leavesToCalculator .multiplication (.int a) (.int b) (some (.int a * .int b)) = false ∧
      (o.compactMultiplication = true →
        o.implicitMultiplicationLimit.toInt < a.toInt.natAbs ∧
        o.implicitMultiplicationLimit.toInt < b.toInt.natAbs) ∧
      areSimple (Number.int a).scale.1 (Number.int b).scale.1 o.implicitMultiplicationLimit = false := by
  have hle := ha.abs_le o.implicitMultiplicationLimit
  have hle' := hb.abs_le o.implicitMultiplicationLimit
  change _ = decide ((a.toInt.natAbs : Int) ≤ _) at hle
  change _ = decide ((b.toInt.natAbs : Int) ≤ _) at hle'
  unfold Options.takesOneStep
  simp only [Bool.or_eq_false_iff, hle, hle', Number.isInteger, Bool.and_true]
  refine and_congr_right fun _ => and_congr_left fun _ => ?_
  cases o.compactMultiplication <;> simp

/-- A product takes one step, or goes to the shortcut and is worked out at length if that has no answer. -/
theorem turns_multiplyWith {shortcut? : Number → Number → Work (Option Number)}
    (h : Factors o a b c)
    (hone : o.takesOneStep (.int a) (.int b) = true → ∀ explanation,
      Turns o before (Work.changeWith ⟨wordProduct a b, .int c, explanation, false⟩) () after)
    (hlong : o.takesOneStep (.int a) (.int b) = false →
      Turns o before (shortcut? (.int a) (.int b)) (some (.int c)) after ∨
        Turns o before (shortcut? (.int a) (.int b)) none before ∧ AtLength a b c before after) :
    Turns o before (multiplyWith shortcut? (.int a) (.int b)) (.int c) after := by
  unfold multiplyWith
  rw [h.isProduct.mul_eq]
  refine turns_options.bind ?_
  extract_lets expression limit
  refine .ite (fun hinfinite => nomatch hinfinite) fun _ => (turns_estimateProduct? h).bind ?_
  unfold Options.takesOneStep at hone hlong
  rw [h.isProduct.mul_eq] at hone hlong
  refine .ite (fun hcalculator => ?_) fun hcalculator => .ite (fun hsimple => ?_) fun hsimple => ?_
  · refine (stays_calculatorMessage ..).turns fun message =>
      (hone ?_ (some message)).follow fun tree => .pure _
    rw [hcalculator, Bool.true_or]
  · refine (hone ?_ none).follow fun tree => .pure _
    rw [Bool.or_eq_true]
    exact .inr hsimple
  · have htakes := Bool.or_eq_false_iff.2
      ⟨Bool.eq_false_of_not_eq_true hcalculator, Bool.eq_false_of_not_eq_true hsimple⟩
    rcases hlong htakes with hshort | ⟨hnone, hlength⟩
    · exact hshort.follow fun tree => .pure _
    · exact hnone.bind (turns_multiplyAtLength h.isProduct h.size_lt hlength)

/-- Without a shortcut. -/
theorem turns_multiplyPlainly (h : Factors o a b c)
    (hone : o.takesOneStep (.int a) (.int b) = true → ∀ explanation,
      Turns o before (Work.changeWith ⟨wordProduct a b, .int c, explanation, false⟩) () after)
    (hlong : o.takesOneStep (.int a) (.int b) = false → AtLength a b c before after) :
    Turns o before (multiplyPlainly (.int a) (.int b)) (.int c) after :=
  turns_multiplyWith h hone fun htakes => .inr ⟨.pure none, hlong htakes⟩

/-! ### At length, as the whole tree -/

/-- The coefficients of two words, and the product of the coefficients. -/
theorem IsProduct.exists_coefficients (h : IsProduct (.int a) (.int b) c) :
    ∃ (m n d : Int64) (i j : Nat), (Number.int a).scale = (.int m, (i : Int)) ∧
      (Number.int b).scale = (.int n, (j : Int)) ∧ IsProduct (.int m) (.int n) d ∧
      m.toInt * 10 ^ i = a.toInt ∧ n.toInt * 10 ^ j = b.toInt := by
  obtain ⟨i, hi, hawhole, havalue, -⟩ := h.left.scale_eq
  obtain ⟨j, hj, hbwhole, hbvalue, -⟩ := h.right.scale_eq
  obtain ⟨m, hm⟩ := hawhole.exists_int
  obtain ⟨n, hn⟩ := hbwhole.exists_int
  rw [hm] at hawhole havalue
  rw [hn] at hbwhole hbvalue
  change m.toInt * 10 ^ i = a.toInt at havalue
  change n.toInt * 10 ^ j = b.toInt at hbvalue
  have hvalue : m.toInt * n.toInt * 10 ^ (i + j) = c.toInt := by
    rw [h.value, pow_add]
    show _ = a.toInt * b.toInt
    rw [← havalue, ← hbvalue]
    ac_rfl
  have hrange : InRange (m.toInt * n.toInt) :=
    inRange_of_mul (Int.pow_pos (by decide)) (hvalue ▸ inRange_toInt c)
  exact ⟨m, n, _, i, j, Prod.ext hm hi, Prod.ext hn hj, ⟨hawhole, hbwhole, toInt_ofInt hrange⟩,
    havalue, hbvalue⟩

/-- One factor is zero, and the other one is the opposite of a power of ten, ten at least. -/
def ZeroAndOppositePower (a b : Int) : Prop :=
  a = 0 ∧ ∃ k : Nat, 1 ≤ k ∧ b = -10 ^ k

section

variable {m n d : Int64} {i j : Nat}

theorem zeroAndOppositePower_iff (hb : (Number.int b).Whole)
    (hscale : (Number.int b).scale = (.int n, (j : Int))) (hm : m.toInt * 10 ^ i = a.toInt)
    (hn : n.toInt * 10 ^ j = b.toInt) :
    ZeroAndOppositePower a.toInt b.toInt ↔ (a ≠ m ∨ b ≠ n) ∧ m = 0 ∧ n = -1 := by
  have hpower : (10 : Int) ^ i ≠ 0 := (Int.pow_pos (by decide)).ne'
  have hzero : a.toInt = 0 ↔ m = 0 := by
    rw [← hm, Int.mul_eq_zero, or_iff_left hpower, ← Int64.toInt_inj]
    rfl
  constructor
  · rintro ⟨ha, k, hk, hvalue⟩
    have hten : (10 : Int) ^ 1 ≤ 10 ^ k := pow_le_pow_right₀ (by decide) hk
    have hsame := (hb.scale_eq_minusOne_iff k).2 hvalue
    rw [hscale] at hsame
    cases hsame
    refine ⟨.inr fun hone => ?_, hzero.1 ha, rfl⟩
    rw [hone] at hvalue
    change (-1 : Int) = _ at hvalue
    omega
  · rintro ⟨hdiffer, rfl, rfl⟩
    have ha := hzero.2 rfl
    refine ⟨ha, j, ?_, (hb.scale_eq_minusOne_iff j).1 hscale⟩
    by_contra hj
    obtain rfl : j = 0 := by omega
    rw [pow_zero, Int.mul_one, Int64.toInt_inj] at hn
    rcases hdiffer with hdiffer | hdiffer
    · exact hdiffer (Int64.toInt_inj.1 ha)
    · exact hdiffer hn.symm

/-- One factor is zero, and the other one the opposite of a power of ten. -/
def SignStays (a b : Int) : Prop :=
  ZeroAndOppositePower a b ∨ ZeroAndOppositePower b a

/-- Coefficients one of which is minus one. -/
theorem exists_besideMinusOne (h : IsProduct (.int m) (.int n) d) (hunit : m = -1 ∨ n = -1) :
    ∃ e, BesideMinusOne m n e ∧ e ≠ Int64.minValue ∧ d = -e := by
  have hone : (-1 : Int64).toInt = -1 := by decide
  have hvalue := h.value
  change d.toInt = m.toInt * n.toInt at hvalue
  rcases hunit with rfl | rfl
  · refine ⟨n, .inl ⟨rfl, rfl⟩, h.right, Int64.toInt_inj.1 ?_⟩
    rw [hvalue, Number.toInt_neg h.right, hone, Int.neg_one_mul]
  · refine ⟨m, .inr ⟨rfl, rfl⟩, h.left, Int64.toInt_inj.1 ?_⟩
    rw [hvalue, Number.toInt_neg h.left, hone, Int.mul_neg_one]

/-- Where the sign stays behind, the coefficient beside minus one is zero. -/
theorem signStays_iff (hproduct : IsProduct (.int a) (.int b) c)
    (hscalea : (Number.int a).scale = (.int m, (i : Int)))
    (hscaleb : (Number.int b).scale = (.int n, (j : Int))) (hm : m.toInt * 10 ^ i = a.toInt)
    (hn : n.toInt * 10 ^ j = b.toInt) :
    SignStays a.toInt b.toInt ↔ (a ≠ m ∨ b ≠ n) ∧ BesideMinusOne m n 0 := by
  rw [SignStays, zeroAndOppositePower_iff hproduct.right hscaleb hm hn,
    zeroAndOppositePower_iff hproduct.left hscalea hn hm, or_comm (b := b ≠ n), ← and_or_left]
  exact and_congr_right fun _ => or_comm.trans (or_congr and_comm and_comm)

/-- Two words that are multiplied at length: the product takes their place, except that for zero and the
opposite of a power of ten the sign stays behind. -/
theorem atLength_wordProduct (hproduct : IsProduct (.int a) (.int b) c)
    (ha : (Number.int a).scale.1 ≠ .int 1) (hb : (Number.int b).scale.1 ≠ .int 1) :
    ∃ after : Expr, AtLength a b c (wordProduct a b) after ∧
      (SignStays a.toInt b.toInt → after = .prod [.int c, Expr.minusOne]) ∧
      (¬ SignStays a.toInt b.toInt → after = .int c) := by
  obtain ⟨m, n, d, i, j, hscalea, hscaleb, hd, hm, hn⟩ := hproduct.exists_coefficients
  have hstays := signStays_iff hproduct hscalea hscaleb hm hn
  have hmone : m ≠ 1 := fun h => ha (by rw [hscalea, h])
  have hnone : n ≠ 1 := fun h => hb (by rw [hscaleb, h])
  by_cases hplain : a = m ∧ b = n
  · obtain ⟨rfl, rfl⟩ := hplain
    have hscalea' := hproduct.left.scale_of_self (by rw [hscalea])
    have hscaleb' := hproduct.right.scale_of_self (by rw [hscaleb])
    refine ⟨.int c, .unscaled hscalea' hscaleb' (Expr.multiplies_self a b c), fun h => ?_, fun _ => rfl⟩
    have hdiffer := (hstays.1 h).1
    simp at hdiffer
  have hdiffer : a ≠ m ∨ b ≠ n := by
    rwa [← not_and_or]
  have hsplit := Expr.rewrites_self (wordProduct a b)
    (.prod [.int m, .int n, tenTo (Int64.ofInt (i + j))])
  by_cases hunit : m = -1 ∨ n = -1
  · obtain ⟨e, hbeside, hmin, rfl⟩ := exists_besideMinusOne hd hunit
    have hone : e ≠ 1 := by
      rcases hbeside with ⟨-, rfl⟩ | ⟨-, rfl⟩ <;> assumption
    have hneg : (Expr.int (-e)).neg = .int e := by
      have hwhole : (Number.int e).Whole := hmin
      show Expr.num (-Number.int (-e)) = .num (.int e)
      rw [← Number.neg_int hmin]
      exact congrArg Expr.num (hwhole.neg.neg.eq_of_toInt hwhole
        (by rw [hwhole.neg.toInt_neg, hwhole.toInt_neg, neg_neg]))
    have hzero : SignStays a.toInt b.toInt ↔ e = 0 := by
      rw [hstays, and_iff_right hdiffer]
      rcases hbeside with ⟨rfl, rfl⟩ | ⟨rfl, rfl⟩ <;> simp [BesideMinusOne]
    exact ⟨_, .scaled hscalea hscaleb hdiffer hd hsplit
      (.found (hbeside.multiplies hneg) (hbeside.rewrites_scaled hone hmin _ (.int c))),
      fun h => if_pos (hzero.1 h), fun h => if_neg (mt hzero.2 h)⟩
  · obtain ⟨hmunit, hnunit⟩ := not_or.1 hunit
    refine ⟨.int c, .scaled hscalea hscaleb hdiffer hd hsplit (.found (Expr.multiplies_shifted _
      ⟨hd.left, hmone, hmunit⟩ ⟨hd.right, hnone, hnunit⟩) (Expr.rewrites_self _ _)),
      fun h => ?_, fun _ => rfl⟩
    rcases (hstays.1 h).2 with ⟨h, -⟩ | ⟨h, -⟩
    · exact absurd h hmunit
    · exact absurd h hnunit

end

/-- A coefficient one makes a product simple. -/
theorem coefficients_ne_one (h : o.takesOneStep (.int a) (.int b) = false) :
    (Number.int a).scale.1 ≠ .int 1 ∧ (Number.int b).scale.1 ≠ .int 1 := by
  unfold Options.takesOneStep areSimple at h
  simp only [Bool.or_eq_false_iff] at h
  obtain ⟨-, -, ⟨-, ha⟩, hb⟩ := h
  refine ⟨fun hone => ?_, fun hone => ?_⟩
  · rw [hone] at ha
    cases ha
  · rw [hone] at hb
    cases hb

/-- The tree that is left where a product was the whole tree: its value, except where a sign stays
behind. -/
structure LeftOver (o : Options) (a b c : Int64) (after : Expr) : Prop where
  sign : o.takesOneStep (.int a) (.int b) = false → SignStays a.toInt b.toInt →
    after = .prod [.int c, Expr.minusOne]
  value : o.takesOneStep (.int a) (.int b) = true ∨ ¬ SignStays a.toInt b.toInt → after = .int c

/-- A multiplication as the whole tree, where the shortcut has no answer. -/
theorem turns_multiplyWith_self (shortcut? : Number → Number → Work (Option Number))
    (h : Factors o a b c)
    (hnone : Turns o (wordProduct a b) (shortcut? (.int a) (.int b)) none (wordProduct a b)) :
    ∃ after : Expr, Turns o (wordProduct a b) (multiplyWith shortcut? (.int a) (.int b)) (.int c) after ∧
      LeftOver o a b c after := by
  cases htakes : o.takesOneStep (.int a) (.int b) with
  | true =>
    refine ⟨.int c, turns_multiplyWith h (fun _ explanation => turns_changeWith
      (Expr.rewrites_self _ _) explanation false) fun hnot => ?_, fun hnot => ?_, fun _ => rfl⟩ <;>
    · rw [htakes] at hnot
      cases hnot
  | false =>
    obtain ⟨hone, hone'⟩ := coefficients_ne_one htakes
    obtain ⟨after, hlength, hstays, hnot⟩ := atLength_wordProduct h.isProduct hone hone'
    refine ⟨after, turns_multiplyWith h (fun hstep => ?_) fun _ => .inr ⟨hnone, hlength⟩,
      fun _ => hstays, fun hother => hnot (hother.resolve_left ?_)⟩ <;> simp_all

end Workings
