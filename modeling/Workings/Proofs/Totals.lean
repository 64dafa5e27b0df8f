import Workings.Proofs.Nearest
import Workings.Proofs.Turning

/-!
# The total of a column addition

Adding finite numbers in columns puts their total in the place of their sum, as long as it can be written
with 128 bits (`addComponents_exact`). The numbers are added as they are printed. What the digits of the
total stand for is exact, so the only rounding is that of the total to the nearest float, and integers in
the range of a word are not rounded at all.
-/

namespace Workings

/-! ### Printed numbers -/

namespace Decimal

/-- The number that a decimal stands for. -/
def value (d : Decimal) : ℚ :=
  Binary64.signed d.negative d.scaled / 10 ^ d.fraction.length

theorem cast_scaledTo {d : Decimal} {places : ℕ} (h : d.fraction.length ≤ places) :
    (d.scaledTo places : ℚ) = d.value * 10 ^ places := by
  obtain ⟨more, rfl⟩ := Nat.exists_eq_add_of_le h
  have hsigned : (d.scaledTo (d.fraction.length + more) : ℚ) =
      Binary64.signed d.negative d.scaled * 10 ^ more := by
    unfold scaledTo Binary64.signed
    rw [Nat.add_sub_cancel_left]
    cases d.negative <;> simp
  rw [hsigned, value, pow_add]
  field_simp

end Decimal

theorem isDigit_zeros (count : ℕ) : ∀ c ∈ zeros count, c.isDigit = true := by
  intro c hc
  rw [List.eq_of_mem_replicate hc]
  rfl

theorem Scientific.isDigit_significant (s : Scientific) : ∀ c ∈ s.significant, c.isDigit = true := by
  intro c hc
  obtain ⟨count, hdigits, -⟩ := dropTrailingZeros_append (Nat.toDigits 10 s.digits)
  refine Decimal.isDigit_toDigits s.digits c ?_
  rw [hdigits]
  exact List.mem_append_left _ hc

/-- Laying digits out around a point leaves at least one before it. -/
theorem Scientific.printed_decimal (s : Scientific) (negative : Bool) : (s.decimal negative).Printed := by
  have hsignificant := s.isDigit_significant
  unfold Scientific.decimal
  extract_lets digits point
  split
  · refine ⟨⟨?_, ?_⟩, List.cons_ne_nil _ _⟩
    · exact List.forall_mem_singleton.2 rfl
    · exact List.forall_mem_append.2 ⟨isDigit_zeros _, hsignificant⟩
  · rename_i hpoint
    split
    · refine ⟨⟨List.forall_mem_append.2 ⟨hsignificant, isDigit_zeros _⟩, fun _ hc => nomatch hc⟩, ?_⟩
      intro hnil
      have hlength := congrArg List.length hnil
      simp only [zeros, List.length_append, List.length_replicate, List.length_nil] at hlength
      omega
    · refine ⟨⟨fun c hc => hsignificant c (List.mem_of_mem_take hc),
        fun c hc => hsignificant c (List.mem_of_mem_drop hc)⟩, ?_⟩
      intro hnil
      have hlength := congrArg List.length hnil
      rw [List.length_take, List.length_nil] at hlength
      omega

namespace Number

/-- A finite number is printed as a decimal. -/
theorem printed_of_isFinite {a : Number} (h : a.isFinite = true) :
    a.decimal? = some a.row ∧ a.row.Printed := by
  suffices hprinted : ∃ d, a.decimal? = some d ∧ d.Printed by
    obtain ⟨d, hdecimal, hd⟩ := hprinted
    have hrow : a.row = d := by
      unfold row
      rw [hdecimal]
    rw [hrow]
    exact ⟨hdecimal, hd⟩
  cases a with
  | int n =>
    exact ⟨_, rfl, Decimal.digital_ofInt _, Nat.toDigits_ne_nil⟩
  | float x =>
    have hunpack : x.toModel.unpack.isFinite = true := h
    obtain ⟨negative, m, e, hfloat⟩ : ∃ negative m e, Binary64.ofFloat x = .finite negative m e := by
      rw [Binary64.ofFloat_eq]
      cases hu : x.toModel.unpack with
      | notANumber | infinity _ =>
        rw [hu] at hunpack
        cases hunpack
      | zero _ | finite _ _ _ _ => exact ⟨_, _, _, rfl⟩
    refine ⟨Binary64.decimal negative m e significantDigits, ?_, ?_⟩
    · simp only [decimal?, hfloat]
    · unfold Binary64.decimal
      split
      · exact ⟨⟨List.forall_mem_singleton.2 rfl, fun _ hc => nomatch hc⟩, List.cons_ne_nil _ _⟩
      · exact Scientific.printed_decimal ..

theorem text_of_isFinite {a : Number} (h : a.isFinite = true) : a.text = String.ofList a.row.chars := by
  unfold text chars
  rw [(printed_of_isFinite h).1]

end Number

namespace ColumnSum

/-! ### The total -/

/-- The number for a total in units of the last of some places after the point: an integer as a word if it
is one, and the nearest float otherwise. -/
inductive Gives (total : ℤ) (places : ℕ) : Number → Prop
  | word {n : Int64} (whole : places = 0) (value : n.toInt = total) : Gives total places (.int n)
  | large {x : Float} (whole : places = 0) (large : ¬ InRange total) (nearest : Nearest x total) :
    Gives total places (.float x)
  | fraction {x : Float} (fraction : 0 < places) (nearest : Nearest x (total / 10 ^ places)) :
    Gives total places (.float x)

/-- An integer beyond the range of a word becomes a float. -/
theorem ofInt_eq_float {n : ℤ} (h : ¬ InRange n) : Number.ofInt n = .float (Float.ofInt n) := by
  have hmin : Int64.minValue.toInt = -2 ^ 63 := by decide
  have hmax : Int64.maxValue.toInt = 2 ^ 63 - 1 := by decide
  have hword : word? n = none := by
    unfold word?
    rw [hmin, hmax]
    refine if_neg fun hrange => h ⟨hrange.1, ?_⟩
    omega
  unfold Number.ofInt Number.exactOr
  rw [hword]
  rfl

/-- A total is rounded once, if at all. -/
theorem gives_unscale {total : ℤ} (h : InWideRange total) (places : ℕ) :
    Gives total places (unscale total places) := by
  have hsmall : (|total| : ℚ) < 2 ^ (1023 : ℤ) := by
    have hcast : (|total| : ℚ) ≤ 2 ^ (127 : ℤ) := by exact_mod_cast abs_le.2 ⟨h.1, h.2.le⟩
    exact hcast.trans_lt (zpow_lt_zpow_right₀ (by norm_num) (by norm_num))
  unfold unscale
  split
  · rename_i hwhole
    by_cases hrange : InRange total
    · rw [Number.ofInt_eq hrange]
      exact .word hwhole (toInt_ofInt hrange)
    · rw [ofInt_eq_float hrange]
      exact .large hwhole hrange (nearest_ofInt hsmall)
  · rename_i hplaces
    have hvalue : Binary64.decimalValue total.natAbs true places < 2 ^ (1023 : ℤ) := by
      refine lt_of_le_of_lt ?_ hsmall
      rw [← Int.cast_abs, Int.abs_eq_natAbs, Int.cast_natCast]
      exact div_le_self (Nat.cast_nonneg _) (one_le_pow₀ (by norm_num))
    refine .fraction (Nat.pos_of_ne_zero hplaces) ?_
    split
    · rename_i hnegative
      have hsigned : (total / 10 ^ places : ℚ) = -Binary64.decimalValue total.natAbs true places := by
        have habs : (total : ℚ) = -(total.natAbs : ℚ) := by
          rw [Nat.cast_natAbs, abs_of_neg hnegative, Int.cast_neg, neg_neg]
        rw [habs, neg_div]
        rfl
      rw [hsigned]
      exact nearest_neg_ofScientific _ true places hvalue
    · rename_i hnonneg
      have hsigned : (total / 10 ^ places : ℚ) = Binary64.decimalValue total.natAbs true places := by
        have habs : (total : ℚ) = (total.natAbs : ℚ) := by
          rw [Nat.cast_natAbs, abs_of_nonneg (not_lt.1 hnonneg)]
        rw [habs]
        rfl
      rw [hsigned]
      exact nearest_ofScientific _ true places hvalue

variable {components : List Number}

/-- The number of places after the point is that of the row with most of them. -/
theorem isGreatest_right (hne : components ≠ []) :
    IsGreatest {places | ∃ c ∈ components, places = c.row.fraction.length} (of components).right := by
  obtain ⟨hmem, hle⟩ := foldl_max_spec ((components.map Number.row).map (·.fraction.length))
  have hrow : ∀ c ∈ components, c.row.fraction.length ≤ (of components).right := fun c hc =>
    hle _ (List.mem_cons_of_mem _ (List.mem_map_of_mem (List.mem_map_of_mem hc)))
  refine ⟨?_, fun places ⟨c, hc, hplaces⟩ => hplaces ▸ hrow c hc⟩
  rcases List.mem_cons.1 hmem with hzero | hmem
  · -- no row has a digit after the point
    obtain ⟨c, hc⟩ := List.exists_mem_of_ne_nil _ hne
    exact ⟨c, hc, hzero.trans (Nat.eq_zero_of_le_zero (hzero ▸ hrow c hc)).symm⟩
  · obtain ⟨row, hrow, heq⟩ := List.mem_map.1 hmem
    obtain ⟨c, hc, rfl⟩ := List.mem_map.1 hrow
    exact ⟨c, hc, heq.symm⟩

/-- The total stands for the sum of the decimals that are printed. -/
theorem cast_total (hne : components ≠ []) (h : ∀ c ∈ components, c.row.Digital) :
    ((((of components).written +
        (of components).carry * 10 ^ ((of components).left + (of components).right) : ℤ)) : ℚ) =
      (components.map (·.row.value)).sum * 10 ^ (of components).right := by
  rw [written_add_carry hne h, List.map_map, Int.cast_list_sum, List.map_map, ← List.sum_map_mul_right]
  refine congrArg List.sum (List.map_congr_left fun c hc => ?_)
  exact Decimal.cast_scaledTo (fits_of h c.row (List.mem_map_of_mem hc)).fraction

end ColumnSum

/-! ### Adding -/

open ColumnSum (Wide Gives valueOf carryOut lastDigits)

/-- Adding finite numbers in columns is exact. The numbers are the decimals that are printed, the digits of
their sum and what is carried are written with 128 bits, and the sum is rounded once, to the nearest float,
unless it is an integer in the range of a word. Every digit is between 0 and 9, and after each column the
digits so far and what is carried stand for the sum of the columns so far. -/
theorem addComponents_exact {components : List Number} (hne : components ≠ [])
    (hfinite : ∀ c ∈ components, c.isFinite = true) (hwide : (ColumnSum.of components).Wide) {s : Sheet}
    (hstrict : s.strict = true) (htree : s.tree = sumOfNumbers components) :
    (∀ c ∈ components, c.text = String.ofList c.row.chars) ∧
    IsGreatest {places | ∃ c ∈ components, places = c.row.fraction.length}
      (ColumnSum.of components).right ∧
    (∃ total : ℤ,
      (total : ℚ) = (components.map (·.row.value)).sum * 10 ^ (ColumnSum.of components).right ∧
      ∃ result t, Gives total (ColumnSum.of components).right result ∧
        Work.exec (addComponents components) s = (.ok result, t) ∧ t.tree = .num result) ∧
    (∀ column ∈ (ColumnSum.of components).columns, 0 ≤ column.digit ∧ column.digit ≤ 9) ∧
    ∀ count ≤ (ColumnSum.of components).left + (ColumnSum.of components).right,
      valueOf (((ColumnSum.of components).columns.take count).map Column.digit) +
          carryOut 0 ((ColumnSum.of components).columns.take count) * 10 ^ count =
        ((ColumnSum.of components).rows.map (lastDigits (ColumnSum.of components).left
          (ColumnSum.of components).right · count)).sum := by
  have hprinted : ∀ c ∈ components, c.row.Printed := fun c hc =>
    (Number.printed_of_isFinite (hfinite c hc)).2
  have hdigital : ∀ c ∈ components, c.row.Digital := fun c hc => (hprinted c hc).digital
  refine ⟨fun c hc => Number.text_of_isFinite (hfinite c hc), ColumnSum.isGreatest_right hne, ?_,
    fun column _ => ColumnSum.digit_between column,
    fun count hcount => ColumnSum.written_add_carry_take hne hdigital hcount⟩
  have hgives := ColumnSum.gives_unscale hwide.total (ColumnSum.of components).right
  have hresult := ColumnSum.total?_of_wide hne hprinted hwide
  have hturns := turns_addComponents_total (o := s.options) (by rw [hresult, Option.elim_some])
    (Expr.rewrites_self (sumOfNumbers components) _)
  have hleft := hturns.run s ⟨rfl, hstrict, htree⟩
  rcases hexec : Work.exec (addComponents components) s with ⟨outcome, t⟩
  rw [hexec] at hleft
  cases hleft with
  | ok stands _ => exact ⟨_, ColumnSum.cast_total hne hdigital, _, _, hgives, rfl, stands.tree⟩

/-- In `-7 + 2.5 + 0.25` the last column borrows. The digits `5.75` and the borrowed `10` make `-4.25`. -/
theorem addComponents_exact_borrow :
    ∃ x t, Work.exec (addComponents [-7, .float 2.5, .float 0.25])
        (Sheet.new (sumOfNumbers [-7, .float 2.5, .float 0.25]) {} {} true) = (.ok (.float x), t) ∧
      t.tree = .num (.float x) ∧ Nearest x (-425 / 10 ^ 2) := by
  have hwide : (ColumnSum.of [-7, .float 2.5, .float 0.25]).Wide :=
    ⟨⟨by decide +kernel, by decide +kernel⟩, ⟨by decide +kernel, by decide +kernel⟩,
      ⟨by decide +kernel, by decide +kernel⟩⟩
  have hright : (ColumnSum.of [-7, .float 2.5, .float 0.25]).right = 2 := by decide +kernel
  have hsum : (([-7, .float 2.5, .float 0.25] : List Number).map (·.row.value)).sum * 10 ^ 2 =
      ((-425 : ℤ) : ℚ) := by decide +kernel
  obtain ⟨-, -, ⟨total, htotal, result, t, hgives, hexec, htree⟩, -⟩ :=
    addComponents_exact (List.cons_ne_nil _ _) (by decide +kernel) hwide
      (s := Sheet.new (sumOfNumbers [-7, .float 2.5, .float 0.25]) {} {} true) rfl rfl
  rw [hright, hsum, Int.cast_inj] at htotal
  rw [hright, htotal] at hgives
  cases hgives with
  | word whole | large whole => cases whole
  | fraction _ nearest => exact ⟨_, t, hexec, htree, by exact_mod_cast nearest⟩

end Workings
