import Workings.Proofs.Nearest
import Workings.Simplify.Literal

/-!
# Opposite floats

Changing the sign turns the order of floats around (`compare_neg`) and leaves magnitudes alone
(`Opposite.abs_eq`), and nothing is above infinity (`not_infinity_lt`). So a literal and its opposite are taken
for themselves under the same options (`Options.clamp_opposite`), and an infinite literal always is
(`Options.clamp_infinite`).
-/

namespace Workings

open Float.Model Float.Model.UnpackedFloat

/-! ### Signs -/

theorem lt_iff_unpack (x y : Float) : x < y ↔ x.toModel.unpack.lt y.toModel.unpack = true :=
  ⟨fun h => of_decide_eq_true h, fun h => decide_eq_true h⟩

theorem Binary64.ofUnpacked_injective : Function.Injective ofUnpacked := by
  have hsign {s s' : Sign} (h : (s == .negative) = (s' == .negative)) : s = s' := by
    cases s <;> cases s' <;> first | rfl | cases h
  intro a b h
  cases a with
  | notANumber => cases b <;> first | rfl | cases h
  | infinity sign =>
    cases b with
    | infinity sign' => exact congrArg _ (hsign (Binary64.infinite.inj h))
    | notANumber | zero _ | finite _ _ _ _ => cases h
  | zero sign =>
    cases b with
    | zero sign' => exact congrArg _ (hsign (Binary64.finite.inj h).1)
    | finite sign' m e hm => exact absurd hm ((Binary64.finite.inj h).2.1 ▸ Nat.lt_irrefl 0)
    | notANumber | infinity _ => cases h
  | finite sign m e hm =>
    cases b with
    | zero sign' => exact absurd hm ((Binary64.finite.inj h).2.1 ▸ Nat.lt_irrefl 0)
    | finite sign' m' e' hm' =>
      obtain ⟨hsigns, rfl, rfl⟩ := Binary64.finite.inj h
      rw [hsign hsigns]
    | notANumber | infinity _ => cases h

/-- The sign of any float can be changed. -/
theorem unpack_neg (x : Float) : (-x).toModel.unpack = x.toModel.unpack.neg := by
  have hneg : (-x).toModel.unpack =
      UnpackedFloat.unpack Format.binary64 (UnpackedFloat.pack Format.binary64 x.toModel.unpack.neg) :=
    rfl
  cases hx : x.toModel.unpack with
  | notANumber =>
    rw [hneg, hx]
    rfl
  | zero sign =>
    rw [hneg, hx]
    cases sign <;> rfl
  | infinity sign =>
    rw [hneg, hx]
    exact unpack_packedInfinity _
  | finite sign m e hm =>
    have hfinite : Binary64.ofFloat x = .finite (sign == .negative) m e := by
      rw [Binary64.ofFloat_eq, hx]
      rfl
    refine Binary64.ofUnpacked_injective ?_
    rw [← Binary64.ofFloat_eq, Binary64.ofFloat_neg hfinite]
    cases sign <;> rfl

theorem neg_neg_unpacked (a : UnpackedFloat) : a.neg.neg = a := by
  cases a with
  | notANumber => rfl
  | zero sign | infinity sign | finite sign _ _ _ => cases sign <;> rfl

theorem compare_neg (a b : UnpackedFloat) : a.neg.compare b.neg = b.compare a := by
  cases a with
  | notANumber => cases b <;> rfl
  | zero sign =>
    cases b with
    | notANumber | zero _ => rfl
    | infinity sign' | finite sign' _ _ _ => cases sign' <;> rfl
  | infinity sign =>
    cases b with
    | notANumber => rfl
    | zero _ => cases sign <;> rfl
    | infinity sign' | finite sign' _ _ _ => cases sign <;> cases sign' <;> rfl
  | finite sign m e hm =>
    cases b with
    | notANumber => rfl
    | zero _ => cases sign <;> rfl
    | infinity sign' => cases sign <;> cases sign' <;> rfl
    | finite sign' m' e' hm' =>
      have hswap : ((compare e e').then (compare m m')).swap = (compare e' e).then (compare m' m) := by
        rw [Ordering.swap_then, Int.compare_swap, Nat.compare_swap]
      have hswap' : ((compare e' e).then (compare m' m)).swap = (compare e e').then (compare m m') := by
        rw [Ordering.swap_then, Int.compare_swap, Nat.compare_swap]
      cases sign <;> cases sign' <;> first | rfl | exact congrArg some hswap | exact congrArg some hswap'.symm

/-- The one is the other with its sign changed. -/
def Opposite (x y : Float) : Prop :=
  y.toModel.unpack = x.toModel.unpack.neg

namespace Opposite

variable {x y bound : Float}

theorem symm (h : Opposite x y) : Opposite y x := by
  unfold Opposite at h ⊢
  rw [h, neg_neg_unpacked]

theorem lt_neg (h : Opposite x y) (hlt : bound < x) : y < -bound := by
  rw [lt_iff_unpack] at hlt ⊢
  unfold UnpackedFloat.lt at hlt ⊢
  rw [h, unpack_neg, compare_neg]
  exact hlt

theorem lt_of_lt_neg (h : Opposite x y) (hlt : x < -bound) : bound < y := by
  rw [lt_iff_unpack] at hlt ⊢
  unfold UnpackedFloat.lt at hlt ⊢
  rw [h, ← neg_neg_unpacked bound.toModel.unpack, compare_neg, ← unpack_neg]
  exact hlt

theorem abs_eq (h : Opposite x y) : y.abs = x.abs := by
  have habs (a : UnpackedFloat) : a.neg.abs = a.abs := by cases a <;> rfl
  have hmodel : y.toModel.unpack.abs = x.toModel.unpack.abs := by rw [h, habs]
  exact congrArg (fun a => (⟨Float.Model.pack a⟩ : Float)) hmodel

end Opposite

theorem opposite_ofInt {n : ℤ} (hn : n ≠ 0) : Opposite (Float.ofInt n) (Float.ofInt (-n)) := by
  cases n with
  | ofNat k =>
    cases k with
    | zero => exact (hn rfl).elim
    | succ k => exact unpack_neg _
  | negSucc k => exact Opposite.symm (unpack_neg _)

/-! ### Infinities -/

theorem unpack_infinity : infinity.toModel.unpack = .infinity .positive := by
  have hbits : infinity.toModel.toBits = 0x7ff0000000000000 := by decide +kernel
  unfold Float.Model.unpack
  rw [hbits]
  rfl

theorem unpack_neg_infinity : (-infinity).toModel.unpack = .infinity .negative := by
  rw [unpack_neg, unpack_infinity]
  rfl

theorem opposite_infinity : Opposite infinity (-infinity) :=
  unpack_neg infinity

theorem not_infinity_lt (x : Float) : ¬ infinity < x := by
  rw [lt_iff_unpack, unpack_infinity]
  unfold UnpackedFloat.lt
  cases x.toModel.unpack with
  | notANumber | zero _ | finite _ _ _ _ => exact Bool.false_ne_true
  | infinity sign => cases sign <;> exact Bool.false_ne_true

theorem not_lt_neg_infinity (x : Float) : ¬ x < -infinity := fun hlt =>
  not_infinity_lt (-x) (Opposite.lt_neg (show Opposite (-infinity) infinity from opposite_infinity.symm) hlt)

theorem ofInt_lt_infinity {n : ℤ} (hn : (|n| : ℚ) < 2 ^ (1023 : ℤ)) : Float.ofInt n < infinity := by
  obtain ⟨negative, m, e, hfinite, -⟩ := nearest_ofInt hn
  rw [lt_iff_unpack, unpack_infinity]
  rw [Binary64.ofFloat_eq] at hfinite
  unfold UnpackedFloat.lt
  cases hu : (Float.ofInt n).toModel.unpack with
  | notANumber | infinity _ =>
    rw [hu] at hfinite
    cases hfinite
  | zero _ => rfl
  | finite sign _ _ _ => cases sign <;> rfl

theorem ofInt_toInt_lt_infinity (n : Int64) : Float.ofInt n.toInt < infinity := by
  refine ofInt_lt_infinity ?_
  have hword : |n.toInt| ≤ 2 ^ 63 := abs_le.2 ⟨Int64.le_toInt n, (Int64.toInt_lt n).le⟩
  have hcast : (|n.toInt| : ℚ) ≤ 2 ^ (63 : ℤ) := by exact_mod_cast hword
  exact hcast.trans_lt (zpow_lt_zpow_right₀ (by norm_num) (by decide))

namespace Number

/-- Infinite, of either sign. -/
inductive Infinite : Number → Prop
  | positive : Infinite (.float infinity)
  | negative : Infinite (.float (-infinity))

theorem Infinite.neg {n : Number} : n.Infinite → (-n).Infinite
  | .positive => .negative
  | .negative => .positive

theorem Infinite.abs_eq {n : Number} : n.Infinite → n.abs = .float infinity
  | .positive => rfl
  | .negative => rfl

/-- An infinite number is no word, nor the opposite of one. -/
theorem Infinite.same_int {n : Number} (h : n.Infinite) (k : Int64) :
    (n == .int k) = false ∧ (Number.int k == n) = false ∧ (n == -.int k) = false := by
  have hword : n.toWord? = none := by cases h <;> rfl
  have hsame (k : Int64) : (n == .int k) = false ∧ (Number.int k == n) = false := by
    have hnot : (n.toWord? == some k) = false := by rw [hword]; rfl
    cases h <;> exact ⟨hnot, hnot⟩
  refine ⟨(hsame k).1, (hsame k).2, ?_⟩
  by_cases hmin : k = Int64.minValue
  · subst hmin
    cases h <;> decide +kernel
  · rw [neg_int hmin]
    exact (hsame (-k)).1

/-- The magnitude of a word as a float, also of the least word, which has no opposite word. -/
theorem abs_int_toFloat (n : Int64) : (Number.int n).abs.toFloat = Float.ofInt |n.toInt| := by
  unfold Number.abs
  split
  · rename_i hnegative
    rw [abs_of_neg ((isNegative_int n).1 hnegative)]
    by_cases hmin : n = Int64.minValue
    · subst hmin
      rfl
    · rw [neg_int hmin, ← toInt_neg hmin]
      rfl
  · rename_i hnegative
    rw [abs_of_nonneg (not_lt.1 (mt (isNegative_int n).2 hnegative))]
    rfl

end Number

/-! ### Literals -/

namespace Options

variable {options : Options}

/-- An infinite literal is taken for itself. -/
theorem clamp_infinite (options : Options) {n : Number} (h : n.Infinite) : options.clamp n = n := by
  have hsmall : ¬ n.toFloat.abs < options.minValue := by
    have habs : n.toFloat.abs = infinity := by cases h <;> rfl
    rw [habs]
    exact not_infinity_lt _
  unfold clamp
  dsimp only
  rw [if_neg hsmall]
  cases h with
  | positive =>
    split_ifs with hlarge hlow
    · rfl
    · exact absurd (of_decide_eq_true (Bool.and_eq_true_iff.1 hlow).2) (not_infinity_lt _)
    · rfl
  | negative =>
    split_ifs with hlarge hlow
    · exact absurd (of_decide_eq_true (Bool.and_eq_true_iff.1 hlarge).2) (not_lt_neg_infinity _)
    · rfl
    · rfl

theorem clamp_cases (options : Options) (n : Number) :
    options.clamp n = n ∨ options.clamp n = 0 ∨ (options.clamp n).Infinite := by
  unfold clamp
  dsimp only
  split_ifs
  · exact .inr (.inl rfl)
  · exact .inr (.inr .positive)
  · exact .inr (.inr .negative)
  · exact .inl rfl

/-- A word and its opposite are taken for themselves under the same options. -/
theorem clamp_opposite {a b : Int64} (hopposite : b.toInt = -a.toInt) (hne : a.toInt ≠ 0)
    (h : options.clamp (.int a) = .int a) : options.clamp (.int b) = .int b := by
  have hfloats : Opposite (Float.ofInt a.toInt) (Float.ofInt b.toInt) :=
    hopposite ▸ opposite_ofInt hne
  unfold clamp at h ⊢
  dsimp only [Number.toFloat] at h ⊢
  rw [hfloats.abs_eq]
  split_ifs at h with hsmall hlarge hlow
  · exact (hne (congrArg Int64.toInt (Number.int.inj h).symm)).elim
  rw [if_neg hsmall, if_neg, if_neg]
  · intro hbelow
    obtain ⟨hclamp, hlt⟩ := Bool.and_eq_true_iff.1 hbelow
    exact hlarge (Bool.and_eq_true_iff.2
      ⟨hclamp, decide_eq_true (hfloats.symm.lt_of_lt_neg (of_decide_eq_true hlt))⟩)
  · intro habove
    obtain ⟨hclamp, hlt⟩ := Bool.and_eq_true_iff.1 habove
    exact hlow (Bool.and_eq_true_iff.2
      ⟨hclamp, decide_eq_true (hfloats.symm.lt_neg (of_decide_eq_true hlt))⟩)

/-- So are two words of which one is looked for as the other. -/
theorem clamp_whole {a b : Int64} (h : options.clamp (.int a) = .int a) (hne : a.toInt ≠ 0)
    (hwhole : (Number.int a == .int b || Number.int a == -.int b) = true) :
    options.clamp (.int b) = .int b := by
  rcases Bool.or_eq_true_iff.1 hwhole with hsame | hopposite
  · obtain rfl : a = b := eq_of_beq hsame
    exact h
  · have hmin : b ≠ Int64.minValue := by
      rintro rfl
      have hword : (-Number.int Int64.minValue).toWord? = none := rfl
      have hsome : ((-Number.int Int64.minValue).toWord? == some a) = true := hopposite
      rw [hword] at hsome
      cases hsome
    rw [Number.neg_int hmin] at hopposite
    have hneg : a = -b := eq_of_beq hopposite
    refine clamp_opposite ?_ hne h
    rw [hneg, Number.toInt_neg hmin, neg_neg]

end Options

end Workings
