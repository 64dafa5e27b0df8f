import Mathlib
import Workings.LongHand.Columns

/-!
# Adding in columns is exact

The digits that a column addition writes down, with the last carry in front of them, stand for the sum
of its rows (`ColumnSum.written_add_carry`): every column keeps the sum of what was added so far
(`ColumnSum.valueOf_addColumns`), and the columns of the digits of the rows stand for the sum of the rows
(`ColumnSum.valueOf_take_digitColumns`). Rows are decimals that consist of digits, with either sign.
-/

namespace Workings

namespace Decimal

/-- Consists of digits. -/
structure Digital (d : Decimal) : Prop where
  whole : ∀ c ∈ d.whole, c.isDigit = true
  fraction : ∀ c ∈ d.fraction, c.isDigit = true

/-- The value of a decimal times `10 ^ places`, for at least as many places as it has. -/
def scaledTo (d : Decimal) (places : Nat) : Int :=
  Binary64.signed d.negative (d.scaled * 10 ^ (places - d.fraction.length))

/-- A decimal as it is printed: it consists of digits, and there is one before the point. -/
structure Printed (d : Decimal) : Prop where
  digital : d.Digital
  whole_ne_nil : d.whole ≠ []

end Decimal

namespace ColumnSum

/-! ### Carrying -/

/-- What is carried out of columns into which `carry` is carried. -/
def carryOut (carry : Int) (columns : List Column) : Int :=
  (columns.getLast?.map Column.carry).getD carry

theorem carryOut_cons (carry : Int) (column : Column) (columns : List Column) :
    carryOut carry (column :: columns) = carryOut column.carry columns := by
  unfold carryOut
  cases columns with
  | nil => rfl
  | cons next rest =>
    rw [List.getLast?_cons_cons]
    cases h : (next :: rest).getLast? with
    | none => exact absurd (List.getLast?_eq_none_iff.1 h) (List.cons_ne_nil _ _)
    | some last => rfl

/-- The digits below the columns and what is carried out of them stand for the digits above them and
what was carried into them. -/
theorem valueOf_addColumns (place carry : Int) (columns : List (List Int)) :
    valueOf ((addColumns place carry columns).map Column.digit) +
        carryOut carry (addColumns place carry columns) * 10 ^ columns.length =
      valueOf (columns.map List.sum) + carry := by
  induction columns generalizing place carry with
  | nil => simp [addColumns, valueOf, carryOut]
  | cons digits rest ih =>
    have hsum : (if carry = 0 then digits else digits ++ [carry]).sum = digits.sum + carry := by
      split
      · omega
      · simp
    simp only [addColumns, ← List.sum_eq_foldr, List.map_cons, valueOf, carryOut_cons,
      List.length_cons, hsum, Column.digit, pow_succ]
    have hrest := ih (place + 1) ((digits.sum + carry) / 10)
    have hsplit := Int.emod_add_mul_ediv (digits.sum + carry) 10
    generalize carryOut ((digits.sum + carry) / 10) _ = out at hrest ⊢
    have hshift : out * (10 ^ rest.length * 10) = 10 * (out * 10 ^ rest.length) := by
      rw [← mul_assoc, mul_comm]
    rw [hshift]
    omega

/-- The first columns do not depend on those after them. -/
theorem take_addColumns (place carry : Int) (columns : List (List Int)) (count : Nat) :
    (addColumns place carry columns).take count = addColumns place carry (columns.take count) := by
  induction columns generalizing place carry count with
  | nil => simp [addColumns]
  | cons digits rest ih =>
    cases count with
    | zero => rfl
    | succ count => simp only [addColumns, List.take_succ_cons, ih]

/-! ### Digits -/

theorem valueOf_map_add (places : List Nat) (f g : Nat → Int) :
    valueOf (places.map fun place => f place + g place) =
      valueOf (places.map f) + valueOf (places.map g) := by
  induction places with
  | nil => rfl
  | cons place places ih =>
    simp only [List.map_cons, valueOf, ih]
    omega

theorem valueOf_map_zero (places : List Nat) : valueOf (places.map fun _ => 0) = 0 := by
  induction places with
  | nil => rfl
  | cons place places ih => simp only [List.map_cons, valueOf, ih, mul_zero, add_zero]

/-- The sums of columns stand for the sum of the rows. -/
theorem valueOf_map_sum {α : Type} (places : List Nat) (rows : List α) (f : α → Nat → Int) :
    valueOf (places.map fun place => (rows.map (f · place)).sum) =
      (rows.map fun row => valueOf (places.map (f row))).sum := by
  induction rows with
  | nil => exact valueOf_map_zero places
  | cons row rows ih =>
    simp only [List.map_cons, List.sum_cons]
    rw [valueOf_map_add, ih]

/-- Digits from right to left stand for the number they are written as. -/
theorem valueOf_map_digitValue (negative : Bool) (chars : List Char) :
    valueOf (chars.map fun c => Binary64.signed negative (Number.digitValue c)) =
      Binary64.signed negative (Nat.ofDigitChars 10 chars.reverse 0) := by
  induction chars with
  | nil => cases negative <;> rfl
  | cons c rest ih =>
    have hlast : Nat.ofDigitChars 10 (c :: rest).reverse 0 =
        10 * Nat.ofDigitChars 10 rest.reverse 0 + Number.digitValue c := by
      rw [List.reverse_cons, Nat.ofDigitChars_append, Nat.ofDigitChars_cons, Nat.ofDigitChars_nil]
      rfl
    rw [List.map_cons, valueOf, ih, hlast]
    cases negative <;> simp only [Binary64.signed, if_true, if_false, Bool.false_eq_true] <;> omega

variable {left right : Nat}

/-- The digit of a row at a place counted from the right, with the sign of the row. -/
def digitAt (left right : Nat) (row : Decimal) (place : Nat) : Int :=
  Binary64.signed row.negative
    (Number.digitValue ((aligned left right row).reverse.getD place '0'))

/-- What the last digits of a row stand for, with the sign of the row. -/
def lastDigits (left right : Nat) (row : Decimal) (count : Nat) : Int :=
  Binary64.signed row.negative
    (Nat.ofDigitChars 10 ((aligned left right row).drop (left + right - count)) 0)

/-- A row whose digits fit into the given places. -/
structure Fits (left right : Nat) (row : Decimal) : Prop where
  digital : row.Digital
  whole : row.whole.length ≤ left
  fraction : row.fraction.length ≤ right

namespace Fits

variable {row : Decimal}

theorem length_aligned (h : Fits left right row) : (aligned left right row).length = left + right := by
  have hwhole := h.whole
  have hfraction := h.fraction
  simp only [aligned, zeros, List.length_append, List.length_replicate]
  omega

theorem isDigit_aligned (h : Fits left right row) :
    ∀ c ∈ aligned left right row, c.isDigit = true := by
  intro c hc
  simp only [aligned, zeros, List.mem_append, List.mem_replicate] at hc
  obtain (⟨⟨-, rfl⟩ | hc⟩ | hc) | ⟨-, rfl⟩ := hc
  · rfl
  · exact h.digital.whole c hc
  · exact h.digital.fraction c hc
  · rfl

theorem ofDigitChars_aligned (row : Decimal) :
    Nat.ofDigitChars 10 (aligned left right row) 0 =
      row.scaled * 10 ^ (right - row.fraction.length) := by
  unfold aligned zeros Decimal.scaled
  rw [List.append_assoc _ row.whole, Nat.ofDigitChars_append, Nat.ofDigitChars_append,
    Nat.ofDigitChars_replicate_zero, Nat.ofDigitChars_replicate_zero, Nat.mul_zero, Nat.mul_comm]

/-- Every place of a row has a digit. -/
theorem digitAt?_eq (h : Fits left right row) {place : Nat} (hplace : place < left + right) :
    digitAt? left right place row = some (digitAt left right row place) := by
  have hlength : place < (aligned left right row).reverse.length := by
    rw [List.length_reverse, h.length_aligned]
    exact hplace
  have hdigit := h.isDigit_aligned _ (List.mem_reverse.1 (List.getElem_mem hlength))
  unfold digitAt? digitAt
  rw [List.getD_eq_getElem?_getD, List.getElem?_eq_getElem hlength]
  show (if _ then _ else _) = _
  rw [if_pos hdigit]
  rfl

/-- The digits of a row at the last places stand for what is written there. -/
theorem valueOf_digitAt (h : Fits left right row) {count : Nat} (hcount : count ≤ left + right) :
    valueOf ((List.range count).map (digitAt left right row)) = lastDigits left right row count := by
  have hrow : (List.range count).map (digitAt left right row) =
      ((aligned left right row).reverse.take count).map fun c =>
        Binary64.signed row.negative (Number.digitValue c) := by
    apply List.ext_getElem
    · simp [h.length_aligned, hcount]
    · intro place h₁ h₂
      have hplace : place < count := by simpa using h₁
      have hlength : place < (aligned left right row).reverse.length := by
        rw [List.length_reverse, h.length_aligned]
        omega
      rw [List.getElem_map, List.getElem_map, List.getElem_range, List.getElem_take, digitAt,
        List.getD_eq_getElem?_getD, List.getElem?_eq_getElem hlength]
      rfl
  rw [hrow, valueOf_map_digitValue, List.take_reverse, List.reverse_reverse, h.length_aligned]
  rfl

end Fits

/-- All digits of a row stand for the row. -/
theorem lastDigits_all (row : Decimal) : lastDigits left right row (left + right) = row.scaledTo right := by
  unfold lastDigits
  rw [Nat.sub_self, List.drop_zero, Fits.ofDigitChars_aligned]
  rfl

/-- The digits in the last columns stand for the sum of what the rows have there. -/
theorem valueOf_take_digitColumns {rows : List Decimal} (hne : rows ≠ [])
    (h : ∀ row ∈ rows, Fits left right row) {count : Nat} (hcount : count ≤ left + right) :
    valueOf (((digitColumns left right rows).take count).map List.sum) =
      (rows.map (lastDigits left right · count)).sum := by
  have hcolumn : ∀ place ∈ List.range count,
      (rows.reverse.filterMap (digitAt? left right place)).sum =
        (rows.map (digitAt left right · place)).sum := by
    intro place hplace
    have hlt := List.mem_range.1 hplace
    have hdigits : rows.reverse.filterMap (digitAt? left right place) =
        rows.reverse.map (digitAt left right · place) := by
      rw [List.filterMap_eq_map_iff_forall_eq_some]
      intro row hrow
      exact (h row (List.mem_reverse.1 hrow)).digitAt?_eq (by omega)
    rw [hdigits, List.map_reverse, List.sum_reverse]
  have hcolumns : ((digitColumns left right rows).take count).map List.sum =
      (List.range count).map fun place => (rows.map (digitAt left right · place)).sum := by
    unfold digitColumns
    rw [if_neg (by simpa using hne), ← List.map_take, List.take_range, Nat.min_eq_left hcount, List.map_map]
    exact List.map_congr_left hcolumn
  rw [hcolumns, valueOf_map_sum]
  refine congrArg List.sum (List.map_congr_left fun row hrow => ?_)
  exact (h row hrow).valueOf_digitAt hcount

/-! ### The whole addition -/

/-- The greatest length, or zero if there is none. -/
theorem foldl_max_spec (lengths : List Nat) : lengths.foldl max 0 ∈ 0 :: lengths ∧
    ∀ length ∈ 0 :: lengths, length ≤ lengths.foldl max 0 :=
  List.max?_eq_some_iff.1 List.max?_cons'

/-- The places of a column addition are enough for all of its rows. -/
theorem fits_of {components : List Number} (h : ∀ c ∈ components, c.row.Digital) :
    ∀ row ∈ (of components).rows, Fits (of components).left (of components).right row := by
  intro row hrow
  obtain ⟨c, hc, rfl⟩ := List.mem_map.1 hrow
  have hleft : (of components).left =
      ((components.map Number.row).map (·.whole.length)).foldl max 0 := by
    have hne : (components.map Number.row).isEmpty = false := by
      rw [List.isEmpty_eq_false_iff]
      exact List.ne_nil_of_mem (List.mem_map_of_mem hc)
    show (if _ then _ else _) = _
    rw [hne]
    rfl
  refine ⟨h c hc, ?_, ?_⟩
  · rw [hleft]
    exact (foldl_max_spec _).2 _ (List.mem_cons_of_mem _ (List.mem_map_of_mem (List.mem_map_of_mem hc)))
  · exact (foldl_max_spec _).2 _ (List.mem_cons_of_mem _ (List.mem_map_of_mem (List.mem_map_of_mem hc)))

theorem length_digitColumns {rows : List Decimal} (hne : rows ≠ []) :
    (digitColumns left right rows).length = left + right := by
  unfold digitColumns
  rw [if_neg (by simpa using hne), List.length_map, List.length_range]

/-- After each column, the digits so far and what is carried stand for the sum of what the rows have in
the columns so far. -/
theorem written_add_carry_take {components : List Number} (hne : components ≠ [])
    (h : ∀ c ∈ components, c.row.Digital) {count : Nat}
    (hcount : count ≤ (of components).left + (of components).right) :
    valueOf (((of components).columns.take count).map Column.digit) +
        carryOut 0 ((of components).columns.take count) * 10 ^ count =
      ((of components).rows.map
        (lastDigits (of components).left (of components).right · count)).sum := by
  have hrows : (of components).rows ≠ [] := by simpa [of] using hne
  have hlength : ((digitColumns (of components).left (of components).right
      (of components).rows).take count).length = count := by
    rw [List.length_take, length_digitColumns hrows, Nat.min_eq_left hcount]
  have hcolumns : (of components).columns = addColumns (-((of components).right : Int)) 0
      (digitColumns (of components).left (of components).right (of components).rows) := rfl
  rw [hcolumns, take_addColumns, ← valueOf_take_digitColumns hrows (fits_of h) hcount]
  have hvalue := valueOf_addColumns (-((of components).right : Int)) 0
    ((digitColumns (of components).left (of components).right (of components).rows).take count)
  rw [hlength, add_zero] at hvalue
  exact hvalue

theorem length_columns {components : List Number} (hne : components ≠ []) :
    (of components).columns.length = (of components).left + (of components).right := by
  have hlength (place carry : Int) (columns : List (List Int)) :
      (addColumns place carry columns).length = columns.length := by
    induction columns generalizing place carry with
    | nil => rfl
    | cons digits rest ih => simp only [addColumns, List.length_cons, ih]
  have hrows : (of components).rows ≠ [] := by simpa [of] using hne
  exact (hlength ..).trans (length_digitColumns hrows)

/-- The digits and the last carry of a column addition stand for the sum of its rows. -/
theorem written_add_carry {components : List Number} (hne : components ≠ [])
    (h : ∀ c ∈ components, c.row.Digital) :
    (of components).written +
        (of components).carry * 10 ^ ((of components).left + (of components).right) =
      ((components.map Number.row).map (Decimal.scaledTo · (of components).right)).sum := by
  have hvalue := written_add_carry_take hne h le_rfl
  rw [List.take_of_length_le (length_columns hne).le] at hvalue
  simp only [lastDigits_all] at hvalue
  exact hvalue

/-! ### The total -/

variable {components : List Number}

theorem digit_between (column : Column) : 0 ≤ column.digit ∧ column.digit ≤ 9 := by
  unfold Column.digit
  omega

theorem valueOf_between {digits : List Int} (h : ∀ digit ∈ digits, 0 ≤ digit ∧ digit ≤ 9) :
    0 ≤ valueOf digits ∧ valueOf digits < 10 ^ digits.length := by
  induction digits with
  | nil => decide
  | cons digit rest ih =>
    obtain ⟨hlow, hhigh⟩ := h digit (by simp)
    obtain ⟨ihlow, ihhigh⟩ := ih fun digit hdigit => h digit (by simp [hdigit])
    rw [valueOf, List.length_cons, pow_succ]
    omega

/-- What is written has as many digits as there are columns. -/
theorem written_between (hne : components ≠ []) :
    0 ≤ (of components).written ∧
      (of components).written < 10 ^ ((of components).left + (of components).right) := by
  have hdigits : ∀ digit ∈ (of components).columns.map Column.digit, 0 ≤ digit ∧ digit ≤ 9 := by
    intro digit hdigit
    obtain ⟨column, -, rfl⟩ := List.mem_map.1 hdigit
    exact digit_between column
  have hbetween := valueOf_between hdigits
  rwa [List.length_map, length_columns hne] at hbetween

/-- The value is in the range of a 128-bit integer. -/
def InWideRange (n : ℤ) : Prop :=
  -2 ^ 127 ≤ n ∧ n < 2 ^ 127

/-- The digits and what is carried out of them fit into 128 bits, each and together. What is carried is
negative if the last column borrows. -/
structure Wide (s : ColumnSum) : Prop where
  digits : InWideRange s.written
  carry : InWideRange (s.carry * 10 ^ (s.left + s.right))
  total : InWideRange (s.written + s.carry * 10 ^ (s.left + s.right))

theorem columns_ne_nil (hne : components ≠ []) (h : ∀ c ∈ components, c.row.Printed) :
    (of components).columns ≠ [] := by
  obtain ⟨c, hc⟩ := List.exists_mem_of_ne_nil _ hne
  have hfits := fits_of (fun c hc => (h c hc).digital) c.row (List.mem_map_of_mem hc)
  have hwhole := List.length_pos_iff.2 (h c hc).whole_ne_nil
  have hleft := hfits.whole
  rw [← List.length_pos_iff, length_columns hne]
  omega

/-- There is a total as long as it fits into 128 bits. -/
theorem total?_of_wide (hne : components ≠ []) (h : ∀ c ∈ components, c.row.Printed)
    (hwide : (of components).Wide) :
    (of components).total? = some ((of components).written +
      (of components).carry * 10 ^ ((of components).left + (of components).right)) := by
  have hcolumns := columns_ne_nil hne h
  have hplace : Int.ofNat (Nat.pow 10 ((of components).left + (of components).right)) =
      10 ^ ((of components).left + (of components).right) := by simp
  have hmax : maxWide = 2 ^ 127 - 1 := by decide
  obtain ⟨-, hdigits⟩ := hwide.digits
  obtain ⟨hcarry, -⟩ := hwide.carry
  obtain ⟨-, htotal⟩ := hwide.total
  -- what is borrowed is a multiple of ten, and so not the least 128-bit integer
  have hten : (10 : ℤ) ∣ (of components).carry * 10 ^ ((of components).left + (of components).right) := by
    have hlength := List.length_pos_iff.2 hcolumns
    rw [length_columns hne] at hlength
    exact Dvd.dvd.mul_left (dvd_pow_self 10 hlength.ne') _
  unfold total?
  dsimp only
  rw [if_neg (by simpa using hcolumns), hplace, hmax]
  split
  · exact if_pos (by omega)
  · refine if_pos ⟨by omega, ?_⟩
    rw [neg_mul]
    omega

end ColumnSum

end Workings
