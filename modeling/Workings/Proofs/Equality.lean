import Workings.Expr.Basic
import Workings.Proofs.Floats

/-!
# Equality by value

Numbers are compared by value: `2` and `2.0` are the same number, and so are the two zeros. What is
compared is the normal form: two numbers are the same if and only if they normalize to the same number
(`Number.same_iff`), and two expressions are equal if and only if they are equal once all their numbers
are normalized (`Expr.beq_iff`). So `==` is an equivalence relation on numbers and on expressions.

The argument about floats is that a float is determined by the value it stands for, up to the sign of
zero. Equality of floats is defined on one way of taking them apart, and the integer that a float stands
for on another, so the two are shown to agree first (`Binary64.ofFloat_eq`).
-/

namespace Workings

open Float.Model Float.Model.UnpackedFloat

/-! ### Two ways of taking a float apart -/

namespace Binary64

/-- The value of a float taken apart by the float model. -/
def ofUnpacked : UnpackedFloat → Binary64
  | .notANumber => .nan
  | .infinity sign => .infinite (sign == .negative)
  | .zero sign => .finite (sign == .negative) 0 (-1074)
  | .finite sign significand exponent _ => .finite (sign == .negative) significand exponent

theorem toNat_unpackMantissa (word : UInt64) :
    (@unpackMantissa Format.binary64 word.toBitVec).toNat = word.toNat % 2 ^ 52 := by
  simp [unpackMantissa]

theorem toNat_unpackExponent (word : UInt64) :
    (@unpackExponent Format.binary64 word.toBitVec).toNat =
      word.toNat / 2 ^ 52 % 2 ^ 11 := by
  simp [unpackExponent, Nat.shiftRight_eq_div_pow]

theorem negative_unpackSign (word : UInt64) :
    (Sign.ofBitVec (@unpackSign Format.binary64 word.toBitVec) == .negative) =
      decide (2 ^ 63 ≤ word.toNat) := by
  have hlt : word.toNat < 2 ^ 64 := word.toNat_lt
  have hsign : (@unpackSign Format.binary64 word.toBitVec).toNat =
      word.toNat / 2 ^ 63 := by
    simp [unpackSign, Nat.shiftRight_eq_div_pow]
    omega
  unfold Sign.ofBitVec
  split
  · rename_i hzero
    have hword : word.toNat / 2 ^ 63 = 0 := hsign ▸ congrArg BitVec.toNat hzero
    rw [decide_eq_false (by omega)]
    rfl
  · rename_i hone
    have hword : word.toNat / 2 ^ 63 ≠ 0 := hsign ▸ fun h => hone (BitVec.toNat_inj.1 h)
    rw [decide_eq_true (by omega)]
    rfl

theorem toNat_implicit (mantissa : BitVec 52) :
    (1#1 ++ mantissa).toNat = 2 ^ 52 + mantissa.toNat := by
  rw [BitVec.toNat_append, ← Nat.shiftLeft_add_eq_or_of_lt mantissa.isLt]
  rfl

/-- The two ways of taking a float apart agree. -/
theorem ofFloat_eq (x : Float) : ofFloat x = ofUnpacked x.toModel.unpack := by
  have hmantissa := toNat_unpackMantissa x.toModel.toBits
  have hexponent := toNat_unpackExponent x.toModel.toBits
  have hsign := negative_unpackSign x.toModel.toBits
  have hones : @unpackExponent Format.binary64 x.toModel.toBits.toBitVec = -1#_ ↔
      x.toModel.toBits.toNat / 2 ^ 52 % 2 ^ 11 = 2047 := by
    rw [← BitVec.toNat_inj, hexponent]
    rfl
  have hzeros : @unpackExponent Format.binary64 x.toModel.toBits.toBitVec = 0#_ ↔
      x.toModel.toBits.toNat / 2 ^ 52 % 2 ^ 11 = 0 := by
    rw [← BitVec.toNat_inj, hexponent]
    rfl
  have hfraction : @unpackMantissa Format.binary64 x.toModel.toBits.toBitVec = 0#_ ↔
      x.toModel.toBits.toNat % 2 ^ 52 = 0 := by
    rw [← BitVec.toNat_inj, hmantissa]
    rfl
  have hbias : Format.binary64.exponentBias = 1023 := by decide
  unfold ofFloat Float.Model.unpack UnpackedFloat.unpack
  simp only [hones, hzeros, hfraction, Float.toBits]
  show (if x.toModel.toBits.toNat / 2 ^ 52 % 2 ^ 11 = 2047 then _ else _) = _
  split
  · show (if x.toModel.toBits.toNat % 2 ^ 52 = 0 then _ else _) = _
    split
    · rw [ofUnpacked, hsign]
      rfl
    · rfl
  · show (if x.toModel.toBits.toNat / 2 ^ 52 % 2 ^ 11 = 0 then _ else _) = _
    split
    · rename_i hzero
      split
      · rename_i hfraction
        rw [ofUnpacked, hsign]
        show Binary64.finite _ (x.toModel.toBits.toNat % 2 ^ 52) _ = _
        rw [hfraction]
        rfl
      · rw [ofUnpacked, hsign, hmantissa, hexponent, hzero, hbias]
        rfl
    · rw [ofUnpacked, hsign, toNat_implicit, hmantissa, hexponent, hbias]
      rfl

/-! ### A float is determined by its value -/

theorem eq_of_toBits {x y : Float} (h : x.toBits.toNat = y.toBits.toNat) : x = y := by
  obtain ⟨⟨word, hword⟩⟩ := x
  obtain ⟨⟨word', hword'⟩⟩ := y
  obtain rfl : word = word' := UInt64.toNat_inj.1 h
  rfl

theorem eq_of_ofFloat {x y : Float} (h : ofFloat x = ofFloat y) (hx : ofFloat x ≠ .nan) : x = y := by
  apply eq_of_toBits
  have hlt := x.toBits.toNat_lt
  have hlt' := y.toBits.toNat_lt
  have hy := h ▸ hx
  unfold ofFloat at h hx hy
  simp only [Nat.pow_eq] at h hx hy
  split_ifs at h hx hy <;> simp only [infinite.injEq, finite.injEq, decide_eq_decide] at h <;>
    first | contradiction | omega

theorem toBits_of_notANumber {x : Float} (h : x.toModel.unpack = .notANumber) :
    x.toModel.toBits.toBitVec = packedNaN Format.binary64 := by
  unfold Float.Model.unpack UnpackedFloat.unpack at h
  simp only at h
  split at h
  · rename_i hones
    split at h
    · cases h
    · rename_i hmantissa
      exact x.toModel.valid.eq_packedNaN hones hmantissa
  · split at h
    · split at h <;> cases h
    · cases h

/-- There is only one word for no-number, so a float is determined by what it is taken apart into. -/
theorem eq_of_unpack {x y : Float} (h : x.toModel.unpack = y.toModel.unpack) : x = y := by
  by_cases hx : x.toModel.unpack = .notANumber
  · apply eq_of_toBits
    have hword := toBits_of_notANumber hx
    have hword' := toBits_of_notANumber (h ▸ hx)
    exact congrArg BitVec.toNat (hword.trans hword'.symm)
  · refine eq_of_ofFloat (by rw [ofFloat_eq, ofFloat_eq, h]) ?_
    rw [ofFloat_eq]
    cases hunpack : x.toModel.unpack with
    | notANumber => exact (hx hunpack).elim
    | infinity _ | zero _ | finite _ _ _ _ => exact fun h => nomatch h

/-- The significand of a finite float has at most 53 bits, and exactly 53 unless the exponent is the
least one. -/
def Canonical : Binary64 → Prop
  | .finite _ significand exponent =>
    significand < 2 ^ 53 ∧ -1074 ≤ exponent ∧ (exponent = -1074 ∨ 2 ^ 52 ≤ significand)
  | _ => True

theorem canonical_ofFloat (x : Float) : (ofFloat x).Canonical := by
  unfold ofFloat
  simp only [Nat.pow_eq]
  split
  · split <;> trivial
  · split
    · refine ⟨?_, ?_, .inl rfl⟩ <;> omega
    · refine ⟨?_, ?_, .inr ?_⟩ <;> omega

/-- The integer that a finite value stands for, with the point moved so far that nothing is behind
it. -/
theorem toInt?_finite {negative : Bool} {significand bias : Nat} {exponent n : Int}
    (hbias : 0 ≤ exponent + bias)
    (h : (finite negative significand exponent).toInt? = some n) :
    ∃ magnitude, n = signed negative magnitude ∧
      magnitude * 2 ^ bias = significand * 2 ^ (exponent + bias).toNat := by
  simp only [toInt?, Nat.pow_eq] at h
  split_ifs at h with hpos hdvd <;> cases h
  · refine ⟨_, rfl, ?_⟩
    rw [Nat.mul_assoc, ← Nat.pow_add]
    congr 2
    omega
  · refine ⟨_, rfl, ?_⟩
    obtain ⟨k, hk⟩ := Nat.dvd_of_mod_eq_zero hdvd
    rw [hk, Nat.mul_div_cancel_left _ (Nat.two_pow_pos _), Nat.mul_comm _ k, Nat.mul_assoc,
      ← Nat.pow_add]
    congr 2
    omega

/-- A normalized significand leaves no room for a smaller exponent. -/
theorem exponent_le {m m' k k' : Nat} (hm : m < 2 ^ 53) (hm' : k' = 0 ∨ 2 ^ 52 ≤ m')
    (h : m * 2 ^ k = m' * 2 ^ k') : k' ≤ k := by
  by_contra hlt
  obtain ⟨d, rfl⟩ : ∃ d, k' = k + 1 + d := ⟨k' - (k + 1), by omega⟩
  have hcancel : m = m' * 2 ^ (1 + d) := by
    apply Nat.eq_of_mul_eq_mul_right (Nat.two_pow_pos k)
    rw [h, Nat.mul_assoc, ← Nat.pow_add]
    congr 2
    omega
  have hlarge : 2 ^ 52 * 2 ^ 1 ≤ m' * 2 ^ (1 + d) :=
    Nat.mul_le_mul (by omega) (Nat.pow_le_pow_right (by decide) (by omega))
  omega

/-- Two canonical values that stand for one integer are the same, up to the sign of zero. -/
theorem eq_of_toInt? {negative negative' : Bool} {m m' : Nat} {e e' n : Int}
    (hc : (finite negative m e).Canonical) (hc' : (finite negative' m' e').Canonical)
    (h : (finite negative m e).toInt? = some n) (h' : (finite negative' m' e').toInt? = some n) :
    m = m' ∧ e = e' ∧ (negative = negative' ∨ m = 0) := by
  obtain ⟨hm, he, hnormal⟩ := hc
  obtain ⟨hm', he', hnormal'⟩ := hc'
  obtain ⟨bias, hbias⟩ : ∃ bias : Nat, (bias : Int) = 1074 := ⟨1074, rfl⟩
  obtain ⟨magnitude, rfl, hvalue⟩ := toInt?_finite (show 0 ≤ e + (bias : Int) by omega) h
  obtain ⟨magnitude', hsigned, hvalue'⟩ := toInt?_finite (show 0 ≤ e' + (bias : Int) by omega) h'
  have hmagnitude : magnitude = magnitude' ∧ (negative = negative' ∨ magnitude = 0) := by
    revert hsigned
    cases negative <;> cases negative' <;> simp [signed] <;> omega
  obtain ⟨rfl, hsign⟩ := hmagnitude
  have hsame := hvalue.symm.trans hvalue'
  have hexponent : (e + bias).toNat = (e' + bias).toNat :=
    Nat.le_antisymm (exponent_le hm' (by omega) hsame.symm) (exponent_le hm (by omega) hsame)
  rw [hexponent] at hsame
  refine ⟨Nat.eq_of_mul_eq_mul_right (Nat.two_pow_pos _) hsame, by omega, hsign.imp_right ?_⟩
  rintro rfl
  rw [Nat.zero_mul] at hvalue
  exact (Nat.mul_eq_zero.1 hvalue.symm).resolve_right (Nat.two_pow_pos _).ne'

theorem exists_finite {d : Binary64} {n : Int} (h : d.toInt? = some n) :
    ∃ negative significand exponent, d = .finite negative significand exponent := by
  cases d with
  | nan | infinite _ => cases h
  | finite negative significand exponent => exact ⟨_, _, _, rfl⟩

theorem unpack_zero {x : Float} {negative : Bool} {exponent : Int}
    (h : ofFloat x = .finite negative 0 exponent) : ∃ s, x.toModel.unpack = .zero s := by
  rw [ofFloat_eq] at h
  cases hunpack : x.toModel.unpack with
  | zero s => exact ⟨s, rfl⟩
  | notANumber | infinity _ =>
    rw [hunpack] at h
    cases h
  | finite s m e hm =>
    rw [hunpack, ofUnpacked] at h
    cases h
    exact (Nat.lt_irrefl 0 hm).elim

end Binary64

/-! ### Floats -/

theorem unpacked_beq_iff (a b : UnpackedFloat) :
    a.beq b = true ↔ (a = b ∧ a ≠ .notANumber) ∨ ∃ s s', a = .zero s ∧ b = .zero s' := by
  unfold UnpackedFloat.beq
  cases a with
  | notANumber => simp [UnpackedFloat.compare]
  | infinity s =>
    cases b with
    | infinity s' => cases s <;> cases s' <;> simp [UnpackedFloat.compare, compare]
    | notANumber | zero _ | finite _ _ _ _ => cases s <;> simp [UnpackedFloat.compare]
  | zero s =>
    cases b with
    | infinity s' => cases s' <;> simp [UnpackedFloat.compare]
    | notANumber | zero _ => simp [UnpackedFloat.compare]
    | finite s' _ _ _ => cases s' <;> simp [UnpackedFloat.compare]
  | finite s m e hm =>
    cases b with
    | infinity s' => cases s <;> cases s' <;> simp [UnpackedFloat.compare]
    | notANumber | zero _ => cases s <;> simp [UnpackedFloat.compare]
    | finite s' m' e' hm' =>
      have hthen : (compare e e').then (compare m m') = .eq ↔ m = m' ∧ e = e' := by
        rw [Ordering.then_eq_eq, Int.compare_eq_eq, Nat.compare_eq_eq, and_comm]
      cases s <;> cases s' <;> simp [UnpackedFloat.compare, hthen]

namespace Number

theorem float_beq_iff (x y : Float) :
    (x == y) = true ↔ (x = y ∧ x.toModel.unpack ≠ .notANumber) ∨
      ∃ s s', x.toModel.unpack = .zero s ∧ y.toModel.unpack = .zero s' := by
  have hbeq := unpacked_beq_iff x.toModel.unpack y.toModel.unpack
  refine hbeq.trans (or_congr_left (and_congr_left fun _ => ⟨Binary64.eq_of_unpack, ?_⟩))
  rintro rfl
  rfl

theorem float_isNaN_iff (x : Float) : x.isNaN = true ↔ x.toModel.unpack = .notANumber := by
  show x.toModel.unpack.isNaN = true ↔ _
  cases x.toModel.unpack <;> simp [UnpackedFloat.isNaN]

theorem normalize_zero {x : Float} {s : Sign} (h : x.toModel.unpack = .zero s) :
    (Number.float x).normalize = .int 0 := by
  have hzero : (Binary64.finite (s == .negative) 0 (-1074)).toInt? = some 0 := by
    rw [Binary64.toInt?, if_neg (by decide), Nat.zero_mod, Nat.zero_div, if_pos rfl]
    cases s <;> rfl
  have hword : word? 0 = some 0 := by decide
  rw [normalize, Binary64.ofFloat_eq, h, Binary64.ofUnpacked, hzero, Option.bind_some, hword]

theorem toInt_of_word? {n : Int} {word : Int64} (h : word? n = some word) : word.toInt = n := by
  unfold word? at h
  split at h
  · rename_i hrange
    cases h
    exact Int64.toInt_ofInt_of_le hrange.1 (Int.lt_add_one_of_le hrange.2)
  · cases h

/-- Floats that stand for one integer are equal. -/
theorem float_beq_of_toInt? {x y : Float} {n : Int} (hx : (Binary64.ofFloat x).toInt? = some n)
    (hy : (Binary64.ofFloat y).toInt? = some n) : (x == y) = true := by
  obtain ⟨negative, m, e, hfinite⟩ := Binary64.exists_finite hx
  obtain ⟨negative', m', e', hfinite'⟩ := Binary64.exists_finite hy
  obtain ⟨rfl, rfl, hsign⟩ := Binary64.eq_of_toInt? (hfinite ▸ Binary64.canonical_ofFloat x)
    (hfinite' ▸ Binary64.canonical_ofFloat y) (hfinite ▸ hx) (hfinite' ▸ hy)
  rw [float_beq_iff]
  rcases hsign with rfl | rfl
  · have hnan : Binary64.ofFloat x ≠ .nan := hfinite ▸ fun h => nomatch h
    refine .inl ⟨Binary64.eq_of_ofFloat (hfinite.trans hfinite'.symm) hnan, ?_⟩
    intro hunpack
    rw [Binary64.ofFloat_eq, hunpack] at hnan
    exact hnan rfl
  · obtain ⟨s, hs⟩ := Binary64.unpack_zero hfinite
    obtain ⟨s', hs'⟩ := Binary64.unpack_zero hfinite'
    exact .inr ⟨s, s', hs, hs'⟩

/-! ### Numbers -/

/-- A float is an integer or stays as it is. -/
theorem normalize_float (x : Float) :
    (∃ n : Int64, (Number.float x).normalize = .int n ∧
        (Binary64.ofFloat x).toInt? = some n.toInt) ∨
      (Number.float x).normalize = .float x := by
  unfold normalize
  dsimp only
  split
  · rename_i n hn
    obtain ⟨value, hvalue, hword⟩ := Option.bind_eq_some_iff.1 hn
    exact .inl ⟨n, rfl, by rw [hvalue, toInt_of_word? hword]⟩
  · exact .inr rfl

theorem float_same_iff (x y : Float) :
    (x == y || (x.isNaN && y.isNaN)) = true ↔
      (Number.float x).normalize = (Number.float y).normalize := by
  rw [Bool.or_eq_true, Bool.and_eq_true, float_isNaN_iff, float_isNaN_iff]
  constructor
  · rintro (h | ⟨hx, hy⟩)
    · rcases (float_beq_iff x y).1 h with ⟨rfl, -⟩ | ⟨s, s', hs, hs'⟩
      · rfl
      · rw [normalize_zero hs, normalize_zero hs']
    · rw [Binary64.eq_of_unpack (hx.trans hy.symm)]
  · intro h
    rcases normalize_float x with ⟨n, hn, hx⟩ | hx
    · rcases normalize_float y with ⟨n', hn', hy⟩ | hy
      · obtain rfl : n = n' := Number.int.inj (hn.symm.trans (h.trans hn'))
        exact .inl (float_beq_of_toInt? hx hy)
      · exact nomatch hn.symm.trans (h.trans hy)
    · rcases normalize_float y with ⟨n', hn', hy⟩ | hy
      · exact nomatch hx.symm.trans (h.trans hn')
      · obtain rfl : x = y := Number.float.inj (hx.symm.trans (h.trans hy))
        by_cases hnan : x.toModel.unpack = .notANumber
        · exact .inr ⟨hnan, hnan⟩
        · exact .inl ((float_beq_iff x x).2 (.inl ⟨rfl, hnan⟩))

theorem toWord?_eq_some_iff (a : Number) (n : Int64) : a.toWord? = some n ↔ a.normalize = .int n := by
  unfold toWord?
  cases a.normalize with
  | int m => rw [Option.some.injEq, Number.int.injEq]
  | float x => exact iff_of_false (fun h => nomatch h) fun h => nomatch h

/-- Two numbers are the same if and only if they have the same normal form. -/
theorem same_iff (a b : Number) : a.same b = true ↔ a.normalize = b.normalize := by
  cases a with
  | int m =>
    cases b with
    | int n => exact beq_iff_eq.trans (Number.int.injEq m n ▸ Iff.rfl)
    | float y => exact beq_iff_eq.trans ((toWord?_eq_some_iff _ _).trans eq_comm)
  | float x =>
    cases b with
    | int n => exact beq_iff_eq.trans (toWord?_eq_some_iff _ _)
    | float y => exact float_same_iff x y

end Number

/-! ### Expressions -/

namespace Expr

mutual

/-- The expression with all its numbers normalized. -/
def normalize : Expr → Expr
  | .num n => .num n.normalize
  | .sym name => .sym name
  | .sum terms => .sum (normalizeAll terms)
  | .prod factors => .prod (normalizeAll factors)
  | .pow base exponent => .pow (normalize base) (normalize exponent)
  | .call f functional subscript superscript =>
    .call f (normalizeAll functional) (normalizeAll subscript) (normalizeAll superscript)
  | .deriv body vars => .deriv (normalize body) vars
  | .integral body var lower upper =>
    .integral (normalize body) var (normalizeOption lower) (normalizeOption upper)

/-- `normalize` in every expression of a list. -/
def normalizeAll : List Expr → List Expr
  | [] => []
  | e :: es => normalize e :: normalizeAll es

/-- `normalize` in an expression that may be missing. -/
def normalizeOption : Option Expr → Option Expr
  | none => none
  | some e => some (normalize e)

end

mutual

theorem agree_same_iff (a b : Expr) : agree Number.same a b = true ↔ a.normalize = b.normalize := by
  cases a with
  | num m => cases b <;> simp [agree, normalize, Number.same_iff]
  | sym x => cases b <;> simp [agree, normalize]
  | sum as => cases b <;> simp [agree, normalize, agreeAll_same_iff as]
  | prod as => cases b <;> simp [agree, normalize, agreeAll_same_iff as]
  | pow base exponent =>
    cases b <;> simp [agree, normalize, agree_same_iff base, agree_same_iff exponent]
  | call f as₁ as₂ as₃ =>
    cases b <;> simp [agree, normalize, agreeAll_same_iff as₁, agreeAll_same_iff as₂,
      agreeAll_same_iff as₃, and_assoc]
  | deriv body vars => cases b <;> simp [agree, normalize, agree_same_iff body]
  | integral body var lower upper =>
    cases b <;> simp [agree, normalize, agree_same_iff body, agreeOption_same_iff lower,
      agreeOption_same_iff upper, and_assoc]

theorem agreeAll_same_iff (as bs : List Expr) :
    agreeAll Number.same as bs = true ↔ normalizeAll as = normalizeAll bs := by
  cases as with
  | nil => cases bs <;> simp [agreeAll, normalizeAll]
  | cons a as =>
    cases bs <;> simp [agreeAll, normalizeAll, agree_same_iff a, agreeAll_same_iff as]

theorem agreeOption_same_iff (a b : Option Expr) :
    agreeOption Number.same a b = true ↔ normalizeOption a = normalizeOption b := by
  cases a with
  | none => cases b <;> simp [agreeOption, normalizeOption]
  | some a => cases b <;> simp [agreeOption, normalizeOption, agree_same_iff a]

end

/-- Expressions are equal if and only if they are once their numbers are normalized. -/
theorem beq_iff (a b : Expr) : (a == b) = true ↔ a.normalize = b.normalize :=
  agree_same_iff a b

theorem beq_refl (a : Expr) : (a == a) = true :=
  (beq_iff a a).2 rfl

theorem beq_symm {a b : Expr} (h : (a == b) = true) : (b == a) = true :=
  (beq_iff b a).2 ((beq_iff a b).1 h).symm

theorem beq_trans {a b c : Expr} (hab : (a == b) = true) (hbc : (b == c) = true) :
    (a == c) = true :=
  (beq_iff a c).2 (((beq_iff a b).1 hab).trans ((beq_iff b c).1 hbc))

instance : EquivBEq Expr where
  rfl := beq_refl _
  symm := beq_symm
  trans := beq_trans

end Expr

end Workings
