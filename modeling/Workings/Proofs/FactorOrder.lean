import Workings.Expr.Order
import Workings.Proofs.Collecting
import Workings.Proofs.Comparing

/-!
# The order of factors

Floats other than no-number are ordered by their ranks (`compareFloat?_eq`), and integers keep their order when
they are converted to floats. But integers are compared exactly among themselves and as floats with floats, and
no-number is comparable with nothing. So the order of factors is symmetric, but it is not transitive on a number
and a smaller one that both count as equal to a third (`Expr.Misordered`). These are all the exceptions
(`Expr.canonicalCompare_order`), and without them factors are sorted (`Expr.pairwise_canonicalSort`).
-/

namespace Workings

open Float.Model Float.Model.UnpackedFloat

/-! ### Ranks of floats -/

/-- One with a sign. -/
def signUnit : Sign → ℤ
  | .positive => 1
  | .negative => -1

/-- Floats are compared by their signs, exponents and significands, in this order. -/
def rank : UnpackedFloat → ℤ × ℤ × ℤ
  | .notANumber | .zero _ => (0, 0, 0)
  | .infinity sign => (2 * signUnit sign, 0, 0)
  | .finite sign m e _ => (signUnit sign, signUnit sign * e, signUnit sign * m)

/-- The lexicographic order. -/
def compareRanks : ℤ × ℤ × ℤ → ℤ × ℤ × ℤ → Ordering :=
  compareLex (compareOn (·.1)) (compareLex (compareOn (·.2.1)) (compareOn (·.2.2)))

instance : Std.TransCmp compareRanks :=
  inferInstanceAs (Std.TransCmp (compareLex _ (compareLex _ _)))

theorem compareRanks_eq (a b : ℤ × ℤ × ℤ) :
    compareRanks a b = (compare a.1 b.1).then ((compare a.2.1 b.2.1).then (compare a.2.2 b.2.2)) :=
  rfl

theorem compare_natCast (m n : ℕ) : compare (m : ℤ) n = compare m n := by
  rcases lt_trichotomy m n with h | rfl | h
  · rw [Nat.compare_eq_lt.2 h, Int.compare_eq_lt.2 (by omega)]
  · rw [Nat.compare_eq_eq.2 rfl, Int.compare_eq_eq.2 rfl]
  · rw [Nat.compare_eq_gt.2 h, Int.compare_eq_gt.2 (by omega)]

theorem compare_neg_neg (m n : ℤ) : compare (-m) (-n) = compare n m := by
  rcases lt_trichotomy n m with h | rfl | h
  · rw [Int.compare_eq_lt.2 h, Int.compare_eq_lt.2 (by omega)]
  · rw [Int.compare_eq_eq.2 rfl, Int.compare_eq_eq.2 rfl]
  · rw [Int.compare_eq_gt.2 h, Int.compare_eq_gt.2 (by omega)]

/-- What is taken apart is compared by its rank. -/
theorem compare_eq_compareRanks {a b : UnpackedFloat} (ha : a ≠ .notANumber) (hb : b ≠ .notANumber) :
    a.compare b = some (compareRanks (rank a) (rank b)) := by
  cases a with
  | notANumber => exact absurd rfl ha
  | zero sign =>
    cases b with
    | notANumber => exact absurd rfl hb
    | zero _ => rfl
    | infinity sign' | finite sign' _ _ _ => cases sign' <;> rfl
  | infinity sign =>
    cases b with
    | notANumber => exact absurd rfl hb
    | zero _ => cases sign <;> rfl
    | infinity sign' | finite sign' _ _ _ => cases sign <;> cases sign' <;> rfl
  | finite sign m e hm =>
    cases b with
    | notANumber => exact absurd rfl hb
    | zero _ => cases sign <;> rfl
    | infinity sign' => cases sign <;> cases sign' <;> rfl
    | finite sign' m' e' hm' =>
      rw [compareRanks_eq]
      cases sign with
      | positive =>
        cases sign' with
        | negative => rfl
        | positive =>
          show some ((compare e e').then (compare m m')) =
            some ((compare (1 * e) (1 * e')).then (compare (1 * (m : ℤ)) (1 * m')))
          rw [one_mul, one_mul, one_mul, one_mul, compare_natCast]
      | negative =>
        cases sign' with
        | positive => rfl
        | negative =>
          show some ((compare e e').then (compare m m')).swap =
            some ((compare (-1 * e) (-1 * e')).then (compare (-1 * (m : ℤ)) (-1 * m')))
          rw [neg_one_mul, neg_one_mul, neg_one_mul, neg_one_mul, compare_neg_neg, compare_neg_neg,
            compare_natCast, Ordering.swap_then, Int.compare_swap, Nat.compare_swap]

theorem compare_of_notANumber {a b : UnpackedFloat} (h : a = .notANumber ∨ b = .notANumber) :
    a.compare b = none := by
  rcases h with rfl | rfl
  · rfl
  · cases a with
    | infinity sign | finite sign _ _ _ => cases sign <;> rfl
    | notANumber | zero _ => rfl

theorem compare_swap (a b : UnpackedFloat) : a.compare b = (b.compare a).map Ordering.swap := by
  by_cases hnan : a = .notANumber ∨ b = .notANumber
  · rw [compare_of_notANumber hnan, compare_of_notANumber hnan.symm]
    rfl
  · obtain ⟨ha, hb⟩ := not_or.1 hnan
    rw [compare_eq_compareRanks ha hb, compare_eq_compareRanks hb ha]
    exact congrArg some Std.OrientedCmp.eq_swap

namespace Number

/-- The rank of a number as a float. -/
def floatRank (n : Number) : ℤ × ℤ × ℤ :=
  rank n.toFloat.toModel.unpack

variable {m n k : Number}

theorem lt_iff_compare (x y : Float) : x < y ↔ x.toModel.unpack.compare y.toModel.unpack = some .lt := by
  have hlt : x < y ↔ x.toModel.unpack.lt y.toModel.unpack = true :=
    ⟨fun h => of_decide_eq_true h, fun h => decide_eq_true h⟩
  exact hlt.trans beq_iff_eq

/-- The order of floats is that of what is taken apart. -/
theorem compareFloat?_eq (x y : Float) :
    compareFloat? x y = x.toModel.unpack.compare y.toModel.unpack := by
  have hbeq : (x == y) = (x.toModel.unpack.compare y.toModel.unpack == some .eq) := rfl
  unfold compareFloat?
  simp only [lt_iff_compare, hbeq, compare_swap y.toModel.unpack]
  cases x.toModel.unpack.compare y.toModel.unpack with
  | none => rfl
  | some o => cases o <;> rfl

theorem isNaN_eq_false_iff (x : Float) : x.isNaN = false ↔ x.toModel.unpack ≠ .notANumber := by
  rw [← Bool.not_eq_true, float_isNaN_iff]

/-! ### The order of numbers -/

theorem compare?_of_isNaN (h : m.isNaN = true ∨ n.isNaN = true) : m.compare? n = none := by
  have hfloat (x y : Float) (h : x.isNaN = true ∨ y.isNaN = true) : compareFloat? x y = none := by
    rw [float_isNaN_iff, float_isNaN_iff] at h
    rw [compareFloat?_eq, compare_of_notANumber h]
  cases m with
  | float x => exact hfloat _ _ h
  | int j =>
    cases n with
    | float y => exact hfloat _ _ h
    | int i =>
      rw [isNaN_int, isNaN_int] at h
      rcases h with h | h <;> cases h

theorem compareFloat?_toFloat (h : m.isNaN = false) (h' : n.isNaN = false) :
    compareFloat? m.toFloat n.toFloat = some (compareRanks m.floatRank n.floatRank) := by
  rw [compareFloat?_eq]
  exact compare_eq_compareRanks ((isNaN_eq_false_iff _).1 h) ((isNaN_eq_false_iff _).1 h')

/-- A float is compared with any number by rank. -/
theorem compare?_float (h : m.isNaN = false) (h' : n.isNaN = false)
    (hfloat : (∃ x, m = .float x) ∨ ∃ y, n = .float y) :
    m.compare? n = some (compareRanks m.floatRank n.floatRank) := by
  rcases hfloat with ⟨x, rfl⟩ | ⟨y, rfl⟩
  · exact compareFloat?_toFloat h h'
  · cases m with
    | int _ | float _ => exact compareFloat?_toFloat h h'

/-- Integers keep their order as floats. -/
theorem isLE_floatRank_int {j i : Int64} (h : j.toInt ≤ i.toInt) :
    (compareRanks (Number.int j).floatRank (Number.int i).floatRank).isLE = true := by
  have hnot := not_ofInt_lt_ofInt h (abs_toInt_lt j) (abs_toInt_lt i)
  have hcompare := compareFloat?_toFloat (isNaN_int i) (isNaN_int j)
  have hswap : compareRanks (Number.int j).floatRank (Number.int i).floatRank =
      (compareRanks (Number.int i).floatRank (Number.int j).floatRank).swap :=
    Std.OrientedCmp.eq_swap
  rw [Ordering.isLE_iff_ne_gt, hswap]
  intro hgt
  rw [Ordering.swap_eq_gt] at hgt
  have hlt : compareFloat? (Float.ofInt i.toInt) (Float.ofInt j.toInt) = some .lt :=
    hcompare.trans (congrArg some hgt)
  unfold compareFloat? at hlt
  rw [if_neg hnot] at hlt
  split_ifs at hlt <;> cases hlt

/-- What is not below another number is not below it as a float. -/
theorem isLE_floatRank {o : Ordering} (h : m.isNaN = false) (h' : n.isNaN = false)
    (hcompare : m.compare? n = some o) (hle : o.isLE = true) :
    (compareRanks m.floatRank n.floatRank).isLE = true := by
  cases m with
  | float x =>
    rw [compare?_float h h' (.inl ⟨x, rfl⟩)] at hcompare
    exact Option.some.inj hcompare ▸ hle
  | int j =>
    cases n with
    | float y =>
      rw [compare?_float h h' (.inr ⟨y, rfl⟩)] at hcompare
      exact Option.some.inj hcompare ▸ hle
    | int i =>
      refine isLE_floatRank_int (Int64.le_iff_toInt_le.1 ?_)
      have heq : compare j i = o := Option.some.inj hcompare
      rw [← heq] at hle
      exact Std.isLE_compare.1 hle

theorem compare?_swap (m n : Number) : m.compare? n = (n.compare? m).map Ordering.swap := by
  by_cases hnan : m.isNaN = true ∨ n.isNaN = true
  · rw [compare?_of_isNaN hnan, compare?_of_isNaN hnan.symm]
    rfl
  · obtain ⟨hm, hn⟩ := not_or.1 hnan
    rw [Bool.not_eq_true] at hm hn
    by_cases hfloat : (∃ x, m = .float x) ∨ ∃ y, n = .float y
    · rw [compare?_float hm hn hfloat, compare?_float hn hm hfloat.symm]
      exact congrArg some Std.OrientedCmp.eq_swap
    · cases m with
      | float x => exact absurd (.inl ⟨x, rfl⟩) hfloat
      | int j =>
        cases n with
        | float y => exact absurd (.inr ⟨y, rfl⟩) hfloat
        | int i => exact congrArg some Std.OrientedCmp.eq_swap

/-- A number and a smaller one that both count as equal to a third: no-number, or a float to which two
different integers are rounded. -/
inductive Misordered : Number → Number → Number → Prop
  | notANumber {m k n : Number} (hk : k.isNaN = true) (h : n.lt m = true) : Misordered m k n
  | rounded {j i : Int64} {x : Float} (h : i < j) (hj : (Float.ofInt j.toInt == x) = true)
    (hi : (Float.ofInt i.toInt == x) = true) : Misordered (.int j) (.float x) (.int i)

theorem compare?_eq_gt_iff (m n : Number) : m.compare? n = some .gt ↔ n.lt m = true := by
  rw [compare?_swap, lt, beq_iff_eq]
  cases n.compare? m with
  | none => exact ⟨nofun, nofun⟩
  | some o => cases o <;> decide

/-- An integer counts as equal to the float to which it is rounded. -/
theorem compare?_eq_eq_iff (j : Int64) (x : Float) :
    (Number.int j).compare? (.float x) = some .eq ↔ (Float.ofInt j.toInt == x) = true := by
  show compareFloat? (Float.ofInt j.toInt) x = some .eq ↔ _
  rw [compareFloat?_eq]
  exact beq_iff_eq.symm

/-- The order of numbers, in which numbers that cannot be compared count as equal. -/
def order (m n : Number) : Ordering :=
  (m.compare? n).getD .eq

theorem order_swap (m n : Number) : m.order n = (n.order m).swap := by
  unfold order
  rw [compare?_swap]
  cases n.compare? m <;> rfl

theorem compare?_of_not_isLE_order (h : ¬ (m.order n).isLE = true) : m.compare? n = some .gt := by
  unfold order at h
  cases hcompare : m.compare? n with
  | none => exact absurd rfl (hcompare ▸ h)
  | some o =>
    rw [hcompare] at h
    cases o with
    | lt | eq => exact absurd rfl h
    | gt => rfl

/-- Numbers other than no-number can be compared. -/
theorem compare?_eq_order (h : m.isNaN = false) (h' : n.isNaN = false) :
    m.compare? n = some (m.order n) := by
  unfold order
  by_cases hfloat : (∃ x, m = .float x) ∨ ∃ y, n = .float y
  · rw [compare?_float h h' hfloat]
    rfl
  · cases m with
    | float x => exact absurd (.inl ⟨x, rfl⟩) hfloat
    | int j =>
      cases n with
      | float y => exact absurd (.inr ⟨y, rfl⟩) hfloat
      | int i => rfl

/-- The order of numbers is transitive except on what is misordered. -/
theorem misordered_iff (m k n : Number) :
    Misordered m k n ↔ (m.order k).isLE = true ∧ (k.order n).isLE = true ∧ ¬ (m.order n).isLE = true := by
  constructor
  · rintro (⟨hk, h⟩ | @⟨j, i, x, h, hj, hi⟩)
    · unfold order
      rw [compare?_of_isNaN (.inr hk), compare?_of_isNaN (.inl hk), (compare?_eq_gt_iff m n).2 h]
      decide
    · unfold order
      rw [(compare?_eq_eq_iff j x).2 hj, compare?_swap, (compare?_eq_eq_iff i x).2 hi]
      refine ⟨rfl, rfl, ?_⟩
      show ¬ (compare j i).isLE = true
      rw [Std.isLE_compare]
      exact Int64.not_le.2 h
  · rintro ⟨hmk, hkn, hnot⟩
    have hgt := compare?_of_not_isLE_order hnot
    by_cases hk : k.isNaN = true
    · exact .notANumber hk ((compare?_eq_gt_iff m n).1 hgt)
    rw [Bool.not_eq_true] at hk
    obtain ⟨hm, hn⟩ : m.isNaN = false ∧ n.isNaN = false := by
      by_contra hnan
      rw [not_and_or, Bool.not_eq_false, Bool.not_eq_false] at hnan
      rw [compare?_of_isNaN hnan] at hgt
      cases hgt
    -- as floats they are in order
    have hmk' := isLE_floatRank hm hk (compare?_eq_order hm hk) hmk
    have hkn' := isLE_floatRank hk hn (compare?_eq_order hk hn) hkn
    have hmn' := Std.TransCmp.isLE_trans hmk' hkn'
    by_cases hfloat : (∃ x, m = .float x) ∨ ∃ y, n = .float y
    · rw [compare?_float hm hn hfloat] at hgt
      rw [Option.some.inj hgt] at hmn'
      cases hmn'
    -- so both are integers, and the third number is no integer
    obtain ⟨j, rfl⟩ : ∃ j, m = .int j := by
      cases m with
      | float x => exact absurd (.inl ⟨x, rfl⟩) hfloat
      | int j => exact ⟨j, rfl⟩
    obtain ⟨i, rfl⟩ : ∃ i, n = .int i := by
      cases n with
      | float y => exact absurd (.inr ⟨y, rfl⟩) hfloat
      | int i => exact ⟨i, rfl⟩
    have hlt : i < j := Std.compare_eq_gt.1 (Option.some.inj hgt)
    cases k with
    | int l =>
      have hjl : j ≤ l := Std.isLE_compare.1 hmk
      have hli : l ≤ i := Std.isLE_compare.1 hkn
      exact absurd (Int64.le_trans hjl hli) (Int64.not_le.2 hlt)
    | float x =>
      have hback := isLE_floatRank_int (Int64.le_iff_toInt_le.1 (Int64.le_of_lt hlt))
      have hsame {l : Int64}
          (hl : (compareRanks (Number.int l).floatRank (Number.float x).floatRank).isLE = true)
          (hl' : (compareRanks (Number.float x).floatRank (Number.int l).floatRank).isLE = true) :
          (Float.ofInt l.toInt == x) = true := by
        refine (compare?_eq_eq_iff l x).1 ?_
        rw [compare?_float (isNaN_int l) hk (.inr ⟨x, rfl⟩), Std.OrientedCmp.isLE_antisymm hl hl']
      exact .rounded hlt (hsame hmk' (Std.TransCmp.isLE_trans hkn' hback))
        (hsame (Std.TransCmp.isLE_trans hback hmk') hkn')

end Number

/-! ### The order of factors -/

namespace Expr

/-- A factor and another one that is to stand before it, both of which count as equal to a third. -/
inductive Misordered : Expr → Expr → Expr → Prop
  | num {m k n : Number} (h : Number.Misordered m k n) : Misordered (.num m) (.num k) (.num n)

theorem canonicalCompare_of_not_number (a : Expr) {b : Expr} (hb : b.isNumber = false) :
    (a.canonicalCompare b).isLE = true := by
  have hnone : b.number? = none := by simpa [isNumber] using hb
  unfold canonicalCompare
  rw [hnone]
  cases a.number? <;> rfl

theorem isNumber_of_canonicalCompare {a b : Expr} (h : (a.canonicalCompare b).isLE = true)
    (hb : b.isNumber = true) : a.isNumber = true := by
  obtain ⟨n, hn⟩ := Option.isSome_iff_exists.1 hb
  unfold canonicalCompare at h
  rw [hn] at h
  cases ha : a.number? with
  | none =>
    rw [ha] at h
    cases h
  | some m => exact Option.isSome_iff_exists.2 ⟨m, ha⟩

theorem exists_num {a : Expr} (h : a.isNumber = true) : ∃ n, a = .num n := by
  cases a with
  | num n => exact ⟨n, rfl⟩
  | sym _ | sum _ | prod _ | pow _ _ | call _ _ _ _ | deriv _ _ | integral _ _ _ _ => cases h

theorem canonicalCompare_swap (a b : Expr) : a.canonicalCompare b = (b.canonicalCompare a).swap := by
  unfold canonicalCompare
  cases a.number? with
  | none => cases b.number? <;> rfl
  | some m =>
    cases b.number? with
    | none => rfl
    | some n => exact Number.order_swap m n

theorem misordered_iff (a b c : Expr) : Misordered a b c ↔
    (a.canonicalCompare b).isLE = true ∧ (b.canonicalCompare c).isLE = true ∧
      ¬ (a.canonicalCompare c).isLE = true := by
  constructor
  · rintro ⟨h⟩
    exact (Number.misordered_iff _ _ _).1 h
  · rintro ⟨hab, hbc, hnot⟩
    have hc : c.isNumber = true := by
      by_contra hc
      exact hnot (canonicalCompare_of_not_number a (Bool.eq_false_iff.2 hc))
    have hb := isNumber_of_canonicalCompare hbc hc
    have ha := isNumber_of_canonicalCompare hab hb
    obtain ⟨m, rfl⟩ := exists_num ha
    obtain ⟨k, rfl⟩ := exists_num hb
    obtain ⟨n, rfl⟩ := exists_num hc
    exact .num ((Number.misordered_iff m k n).2 ⟨hab, hbc, hnot⟩)

/-- The order of factors is symmetric, and it is transitive except on what is misordered: a number and a
smaller one with a third that both count as equal to, which is no-number or a float to which both are
rounded. -/
theorem canonicalCompare_order (a b c : Expr) :
    a.canonicalCompare b = (b.canonicalCompare a).swap ∧
    (Misordered a b c ↔ (a.canonicalCompare b).isLE = true ∧ (b.canonicalCompare c).isLE = true ∧
      ¬ (a.canonicalCompare c).isLE = true) :=
  ⟨canonicalCompare_swap a b, misordered_iff a b c⟩

/-- `2 ^ 53 + 1` is rounded to `2 ^ 53`, and no-number counts as equal to every number. So the order of factors
is not transitive, and sorting leaves a number before a smaller one. -/
theorem canonicalCompare_not_transitive :
    (let a := Expr.int 9007199254740993
     let b := Expr.num (.float (Float.ofBits 0x4340000000000000))
     let c := Expr.int 9007199254740992
     a.canonicalCompare b = .eq ∧ b.canonicalCompare c = .eq ∧ a.canonicalCompare c = .gt ∧
       canonicalSort [a, b, c] = [a, b, c]) ∧
    (let a := Expr.int 2
     let b := Expr.num (.float notANumber)
     let c := Expr.int 1
     a.canonicalCompare b = .eq ∧ b.canonicalCompare c = .eq ∧ a.canonicalCompare c = .gt ∧
       canonicalSort [a, b, c] = [a, b, c]) ∧
    ¬ ∀ a b c : Expr, (a.canonicalCompare b).isLE = true → (b.canonicalCompare c).isLE = true →
      (a.canonicalCompare c).isLE = true := by
  refine ⟨⟨by decide +kernel, by decide +kernel, by decide +kernel, rfl⟩,
    ⟨by decide +kernel, by decide +kernel, by decide +kernel, rfl⟩, fun h => ?_⟩
  have htransitive := h (.int 2) (.num (.float notANumber)) (.int 1) (by decide +kernel) (by decide +kernel)
  exact absurd htransitive (by decide +kernel)

/-! ### Sorting -/

/-- No three of the expressions are misordered. -/
def Sortable (items : List Expr) : Prop :=
  ∀ a ∈ items, ∀ b ∈ items, ∀ c ∈ items, ¬ Misordered a b c

theorem Sortable.subset {items others : List Expr} (h : Sortable items) (hsubset : others ⊆ items) :
    Sortable others :=
  fun a ha b hb c hc => h a (hsubset ha) b (hsubset hb) c (hsubset hc)

/-- Sorted from right to left, as the list is kept. -/
abbrev Descending (items : List Expr) : Prop :=
  items.Pairwise fun later earlier => (earlier.canonicalCompare later).isLE = true

/-- An item finds its place among sorted ones. -/
theorem descending_settle {item : Expr} {items : List Expr} (h : Sortable (item :: items))
    (hitems : Descending items) : Descending (settle item items) := by
  induction items with
  | nil => exact List.pairwise_singleton _ _
  | cons last before ih =>
    obtain ⟨hlast, hbefore⟩ := List.pairwise_cons.1 hitems
    unfold settle
    split
    · rename_i hbelow
      have hlt : item.canonicalCompare last = .lt := beq_iff_eq.1 hbelow
      refine List.pairwise_cons.2 ⟨fun b hb => ?_, ih (h.subset ?_) hbefore⟩
      · rcases List.mem_cons.1 ((Simplify.perm_settle item before).subset hb) with rfl | hb
        · rw [hlt]
          rfl
        · exact hlast b hb
      · exact List.cons_subset_cons _ (List.subset_cons_self _ _)
    · rename_i hnot
      have hle : (last.canonicalCompare item).isLE = true := by
        rw [canonicalCompare_swap]
        cases hcompare : item.canonicalCompare last with
        | lt => exact absurd (beq_iff_eq.2 hcompare) hnot
        | eq | gt => rfl
      refine List.pairwise_cons.2 ⟨fun b hb => ?_, hitems⟩
      rcases List.mem_cons.1 hb with rfl | hb
      · exact hle
      · by_contra hfails
        refine h b (by simp [hb]) last (by simp) item (by simp) ?_
        exact (misordered_iff b last item).2 ⟨hlast b hb, hle, hfails⟩

/-- Factors no three of which are misordered are sorted. -/
theorem pairwise_canonicalSort {items : List Expr} (h : Sortable items) :
    (canonicalSort items).Pairwise fun a b => (a.canonicalCompare b).isLE = true := by
  have hfold (sorted : List Expr) (hsortable : Sortable (items ++ sorted)) (hsorted : Descending sorted) :
      Descending (items.foldl (fun sorted item => settle item sorted) sorted) := by
    induction items generalizing sorted with
    | nil => exact hsorted
    | cons item items ih =>
      have hperm := Simplify.perm_settle item sorted
      refine ih (h.subset (List.subset_cons_self _ _)) _ (hsortable.subset ?_) (descending_settle
        (hsortable.subset ?_) hsorted)
      · intro a ha
        rcases List.mem_append.1 ha with ha | ha
        · exact List.mem_append_left _ (List.mem_cons_of_mem _ ha)
        · rcases List.mem_cons.1 (hperm.subset ha) with rfl | ha
          · exact List.mem_append_left _ List.mem_cons_self
          · exact List.mem_append_right _ ha
      · exact List.cons_subset_cons _ (List.subset_append_right _ _)
  exact List.pairwise_reverse.2 (hfold [] (by simpa using h) .nil)

end Expr

end Workings
