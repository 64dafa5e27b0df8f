import Workings.Proofs.Products

/-!
# Factors close to a power of ten

`a * b = (p - d) * y` where `p` is the power of ten next to one of the factors, `d` the distance to it and
`y` the other factor (`NearPower.exists_splits`). For factors of at most nine digits all numbers on the
way are words. The coefficient of a number has no trailing zeros, so a number with the coefficient `-1` is
the opposite of a power of ten (`Number.Whole.scale_eq_minusOne_iff`).
-/

namespace Workings

theorem exists_word {n : Int} (h : n.natAbs < 2 ^ 63) : ∃ c : Int64, c.toInt = n :=
  ⟨_, toInt_ofInt ⟨by omega, by omega⟩⟩

theorem whole_of_natAbs_lt {a : Int64} (h : a.toInt.natAbs < 2 ^ 63) : (Number.int a).Whole := by
  rintro rfl
  revert h
  decide

namespace Number

theorem int_lt (a b : Int64) : (Number.int a).lt (.int b) = decide (a.toInt < b.toInt) := by
  rw [Bool.eq_iff_iff, decide_eq_true_iff, ← Int64.lt_iff_toInt_lt]
  unfold lt compare?
  simp [Std.compare_eq_lt]

theorem int_le (a b : Int64) : (Number.int a).le (.int b) = decide (a.toInt ≤ b.toInt) := by
  rw [Bool.eq_iff_iff, decide_eq_true_iff, le_iff_lt_or_eq, ← Int64.lt_iff_toInt_lt, Int64.toInt_inj]
  unfold le compare?
  simp [Std.compare_eq_lt]

theorem int_sub {a b c : Int64} (h : c.toInt = a.toInt - b.toInt) :
    Number.int a - Number.int b = .int c := by
  have hrange : InRange (a.toInt - b.toInt) := h ▸ inRange_toInt c
  have hexact : Number.int a - Number.int b = .int (Int64.ofInt (a.toInt - b.toInt)) :=
    exactOr_eq hrange _
  rw [hexact, ← h, Int64.ofInt_toInt]

/-- A number that is its own coefficient has no trailing zeros. -/
theorem Whole.scale_of_self {n : Number} (hn : n.Whole) (h : n.scale.1 = n) : n.scale = (n, 0) := by
  obtain ⟨k, hexponent, -, -, hsize⟩ := hn.scale_eq
  rw [h] at hsize
  have hpower : 10 ^ k = 1 := by
    refine Nat.eq_of_mul_eq_mul_left (show 0 < max 1 n.toInt.natAbs by omega) ?_
    rw [hsize, Nat.mul_one]
  have hzero : k = 0 := by
    by_contra hk
    have : 10 ^ 1 ≤ 10 ^ k := Nat.pow_le_pow_right (by decide) (by omega)
    omega
  exact Prod.ext h (by rw [hexponent, hzero]; rfl)

/-- A number without trailing zeros is its own coefficient. -/
theorem Whole.scale_of_exponent {n : Number} (hn : n.Whole) (h : n.scale.2 = 0) : n.scale = (n, 0) := by
  obtain ⟨k, hexponent, hwhole, hvalue, -⟩ := hn.scale_eq
  obtain rfl : k = 0 := Int.ofNat_inj.1 (hexponent.symm.trans h)
  rw [pow_zero, Int.mul_one] at hvalue
  exact Prod.ext (hwhole.eq_of_toInt hn hvalue) h

/-- The coefficient of a number is `-1` exactly if the number is the opposite of a power of ten. -/
theorem Whole.scale_eq_minusOne_iff {n : Number} (hn : n.Whole) (k : Nat) :
    n.scale = (.int (-1), (k : Int)) ↔ n.toInt = -10 ^ k := by
  obtain ⟨j, hexponent, hwhole, hvalue, -⟩ := hn.scale_eq
  constructor
  · intro h
    rw [h] at hexponent hvalue
    obtain rfl : k = j := Int.ofNat_inj.1 hexponent
    rw [← hvalue]
    exact Int.neg_one_mul _
  · intro h
    have hpower : (0 : Int) < 10 ^ k := Int.pow_pos (by decide)
    have hnot := hn.not_dvd_scale (by omega)
    rw [h] at hvalue
    rcases Nat.lt_trichotomy j k with hlt | rfl | hlt
    · obtain ⟨i, rfl⟩ := Nat.exists_eq_add_of_lt hlt
      refine absurd ⟨-10 ^ i, ?_⟩ hnot
      refine Int.eq_of_mul_eq_mul_right (show (10 : Int) ^ j ≠ 0 from (Int.pow_pos (by decide)).ne') ?_
      rw [hvalue]
      ring
    · have hone : n.scale.1.toInt = -1 :=
        Int.eq_of_mul_eq_mul_right hpower.ne' (by rw [hvalue, Int.neg_one_mul])
      exact Prod.ext (hwhole.eq_of_toInt (show Number.Whole (.int (-1)) by decide) hone) hexponent
    · obtain ⟨i, rfl⟩ := Nat.exists_eq_add_of_lt hlt
      have hone : n.scale.1.toInt * 10 ^ (i + 1) = -1 := by
        refine Int.eq_of_mul_eq_mul_right hpower.ne' ?_
        rw [← Int.neg_one_mul] at hvalue
        rw [← hvalue]
        ring
      rw [pow_succ, ← mul_assoc] at hone
      omega

/-- The coefficient of an integer is not greater. -/
theorem Whole.natAbs_scale_le {n : Number} (hn : n.Whole) : n.scale.1.toInt.natAbs ≤ n.toInt.natAbs := by
  obtain ⟨k, -, -, hvalue, -⟩ := hn.scale_eq
  rw [← hvalue, Int.natAbs_mul, Int.natAbs_pow]
  exact Nat.le_mul_of_pos_right _ (Nat.pow_pos (by decide))

theorem Whole.abs_le {n : Number} (hn : n.Whole) (limit : Int64) :
    n.abs.le (.int limit) = decide ((n.toInt.natAbs : Int) ≤ limit.toInt) := by
  obtain ⟨k, hk⟩ := hn.abs.exists_int
  have hvalue := hn.toInt_abs
  rw [hk] at hvalue ⊢
  change k.toInt = _ at hvalue
  rw [Number.int_le, hvalue]

/-- A coefficient beyond a limit. -/
theorem Whole.lt_natAbs_scale {n : Number} (hn : n.Whole) {limit : Int64}
    (h : n.scale.1.abs.le (.int limit) = false) : limit.toInt < n.scale.1.toInt.natAbs := by
  obtain ⟨-, -, hwhole, -⟩ := hn.scale_eq
  rwa [hwhole.abs_le, decide_eq_false_iff_not, not_le] at h

end Number

/-! ### Digits -/

theorem complexity_int_le {a : Int64} (h : a.toInt.natAbs < 10 ^ 9) : (Number.int a).complexity ≤ 9 :=
  (Nat.length_toDigits_le_iff (by decide) (by decide)).2 h

theorem length_chars_int (a : Int64) : (Number.int a).chars.length =
    (if a.toInt < 0 then 1 else 0) + (Nat.toDigits 10 a.toInt.natAbs).length := by
  show ((if decide (a.toInt < 0) = true then ['-'] else []) ++ Nat.toDigits 10 a.toInt.natAbs ++
    []).length = _
  by_cases h : a.toInt < 0 <;> simp [h, Nat.add_comm]

/-- The power of ten next to a number of at most nine digits. -/
theorem exists_nextPowerOfTen {a : Int64} (h : a.toInt.natAbs < 10 ^ 9) :
    ∃ (p : Int64) (count : Nat), nextPowerOfTen (.int a) = .int p ∧ p.toInt = 10 ^ count ∧
      a.toInt < p.toInt ∧ p.toInt ≤ 10 ^ 10 ∧ (0 < a.toInt → p.toInt ≤ 10 ^ 9) := by
  have hlength := length_chars_int a
  have hdigits : (Nat.toDigits 10 a.toInt.natAbs).length ≤ 9 :=
    (Nat.length_toDigits_le_iff (by decide) (by decide)).2 h
  have hpos : 0 < (Nat.toDigits 10 a.toInt.natAbs).length :=
    Nat.length_toDigits_pos
  have hbelow : a.toInt.natAbs < 10 ^ (Nat.toDigits 10 a.toInt.natAbs).length :=
    (Nat.length_toDigits_le_iff (by decide) hpos).1 (le_refl _)
  generalize (Nat.toDigits 10 a.toInt.natAbs).length = digits at hlength hdigits hpos hbelow
  obtain ⟨hwhole, hvalue⟩ := powerOfTen_eq (k := (Number.int a).chars.length)
    (by rw [hlength]; split <;> omega)
  obtain ⟨p, hp⟩ := hwhole.exists_int
  rw [hp] at hvalue
  change p.toInt = 10 ^ (Number.int a).chars.length at hvalue
  refine ⟨p, _, hp, hvalue, ?_⟩
  rw [hvalue, hlength]
  by_cases hneg : a.toInt < 0
  · rw [if_pos hneg]
    have hone : (0 : Int) < 10 ^ (1 + digits) := Int.pow_pos (by decide)
    have hle : (10 : Int) ^ (1 + digits) ≤ 10 ^ 10 := by
      exact_mod_cast Nat.pow_le_pow_right (by decide) (show 1 + digits ≤ 10 by omega)
    exact ⟨by omega, hle, by omega⟩
  · rw [if_neg hneg, Nat.zero_add]
    have hle : (10 : Int) ^ digits ≤ 10 ^ 9 := by
      exact_mod_cast Nat.pow_le_pow_right (by decide) hdigits
    have hbelow' : (a.toInt.natAbs : Int) < 10 ^ digits := by exact_mod_cast hbelow
    exact ⟨by omega, by omega, fun _ => hle⟩

/-- A split of one of the words `a` and `b`: it is `p - d`, with `d` below the limit, and the other one is
`y`. -/
structure NearPower.Splits (near : NearPower) (limit a b p d y : Int64) : Prop where
  shape : near = ⟨.int p, .int d, .int y, near.first⟩
  order : near.first = true ∧ a.toInt = p.toInt - d.toInt ∧ b = y ∨
    near.first = false ∧ b.toInt = p.toInt - d.toInt ∧ a = y
  power : ∃ count : Nat, p.toInt = 10 ^ count
  low : 1 ≤ d.toInt
  small : d.toInt < limit.toInt
  large : limit.toInt < p.toInt - d.toInt
  bound : p.toInt ≤ 10 ^ 9

/-- A factor that is split is close to a power of ten. -/
theorem NearPower.exists_splits {limit a b : Int64} {near : NearPower}
    (ha : a.toInt.natAbs < 10 ^ 9) (hb : b.toInt.natAbs < 10 ^ 9)
    (h : NearPower.find? (.int limit) (.int a) (.int b) = some near) :
    ∃ p d y, near.Splits limit a b p d y := by
  obtain ⟨p, count, hp, hpvalue, hap, hpbound, hpsmall⟩ := exists_nextPowerOfTen ha
  obtain ⟨q, count', hq, hqvalue, hbq, hqbound, hqsmall⟩ := exists_nextPowerOfTen hb
  have hdistance (x y : Int64) (hx : x.toInt ≤ 10 ^ 10) (hy : y.toInt.natAbs < 10 ^ 9)
      (hxy : y.toInt < x.toInt) :
      ∃ d : Int64, Number.int x - Number.int y = .int d ∧ d.toInt = x.toInt - y.toInt := by
    obtain ⟨d, hd⟩ := exists_word (show (x.toInt - y.toInt).natAbs < 2 ^ 63 by omega)
    exact ⟨d, Number.int_sub hd, hd⟩
  obtain ⟨d, hd, hdvalue⟩ := hdistance p a hpbound ha hap
  obtain ⟨e, he, hevalue⟩ := hdistance q b hqbound hb hbq
  unfold find? at h
  simp only [hp, hq, hd, he, Number.int_lt] at h
  split at h
  · rename_i hfound
    simp only [Bool.and_eq_true, decide_eq_true_iff] at hfound
    obtain rfl := Option.some.inj h
    exact ⟨p, d, b, rfl, .inl ⟨rfl, by omega, rfl⟩, ⟨count, hpvalue⟩, by omega, by omega, by omega,
      hpsmall (by omega)⟩
  · split at h
    · rename_i hfound
      simp only [Bool.and_eq_true, decide_eq_true_iff] at hfound
      obtain rfl := Option.some.inj h
      exact ⟨q, e, a, rfl, .inr ⟨rfl, by omega, rfl⟩, ⟨count', hqvalue⟩, by omega, by omega, by omega,
        hqsmall (by omega)⟩
    · cases h

theorem NearPower.Splits.other_lt {limit a b p d y : Int64} {near : NearPower}
    (h : near.Splits limit a b p d y) (ha : a.toInt.natAbs < 10 ^ 9) (hb : b.toInt.natAbs < 10 ^ 9) :
    y.toInt.natAbs < 10 ^ 9 := by
  rcases h.order with ⟨-, -, rfl⟩ | ⟨-, -, rfl⟩ <;> assumption

theorem NearPower.Splits.distance_lt {limit a b p d y : Int64} {near : NearPower}
    (h : near.Splits limit a b p d y) : d.toInt.natAbs < 10 ^ 9 := by
  obtain ⟨-, -, -, hlow, hsmall, hlarge, hbound⟩ := h
  omega

/-- The product of the power of ten and the other factor, and what it exceeds the product of the factors
by. -/
theorem NearPower.Splits.exists_words {limit a b c p d y : Int64} {near : NearPower}
    (h : near.Splits limit a b p d y) (hy : y.toInt.natAbs < 10 ^ 9)
    (hc : c.toInt = a.toInt * b.toInt) :
    ∃ r w : Int64, IsProduct (.int p) (.int y) r ∧ w.toInt = d.toInt * y.toInt ∧
      c.toInt = r.toInt - w.toInt := by
  obtain ⟨-, horder, -, hlow, hsmall, hlarge, hbound⟩ := h
  have hword (x : Int64) (hpos : 0 ≤ x.toInt) (hx : x.toInt ≤ 10 ^ 9) :
      ∃ z : Int64, z.toInt = x.toInt * y.toInt := by
    refine exists_word ?_
    rw [Int.natAbs_mul]
    refine lt_of_le_of_lt (Nat.mul_le_mul (?_ : _ ≤ 10 ^ 9) hy.le) (by decide)
    omega
  obtain ⟨r, hr⟩ := hword p (by omega) hbound
  obtain ⟨w, hw⟩ := hword d (by omega) (by omega)
  refine ⟨r, w, ⟨whole_of_natAbs_lt (by omega), whole_of_natAbs_lt (by omega), hr⟩, hw, ?_⟩
  rw [hc, hr, hw, ← Int.sub_mul]
  rcases horder with ⟨-, ha, rfl⟩ | ⟨-, hb, rfl⟩
  · rw [ha]
  · rw [hb, Int.mul_comm]

/-- The split factor is not itself a power of ten. -/
theorem NearPower.Splits.scale_ne_one {limit a b p d y x : Int64} {near : NearPower}
    (h : near.Splits limit a b p d y) (hwhole : (Number.int x).Whole)
    (hx : x.toInt = p.toInt - d.toInt) : (Number.int x).scale.1 ≠ .int 1 := by
  intro hone
  obtain ⟨k, -, -, hvalue, -⟩ := hwhole.scale_eq
  rw [hone] at hvalue
  change 1 * 10 ^ k = x.toInt at hvalue
  obtain ⟨count, hp⟩ := h.power
  have hlow := h.low
  have hsmall := h.small
  have hlarge := h.large
  have hcount : k < count := by
    by_contra hle
    have hpowers : (10 : Int) ^ count ≤ 10 ^ k := pow_le_pow_right₀ (by decide) (by omega)
    omega
  have hpowers : (10 : Int) ^ (k + 1) ≤ 10 ^ count := pow_le_pow_right₀ (by decide) hcount
  rw [pow_succ] at hpowers
  omega

end Workings
