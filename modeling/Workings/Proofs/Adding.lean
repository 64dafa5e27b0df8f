import Workings.Proofs.Digits
import Workings.Proofs.Settled

/-!
# Long addition of natural numbers

Whatever way is taken, adding natural numbers gives their sum as long as it is a word, and every change
on the way reduces what is on the sheet (`meets_add`).
-/

namespace Workings

open Workings.Expr (Everywhere Plain)
open Work (Meets)

variable {p : Progress} {s : Sheet}

/-! ### Numbers -/

namespace Number

theorem Natural.toInt_nonneg {n : Number} (h : n.Natural) : 0 ≤ n.toInt := by
  cases n with
  | float x => exact h.elim
  | int n => exact h

theorem Whole.natural {n : Number} (h : n.Whole) (hn : 0 ≤ n.toInt) : n.Natural := by
  cases n with
  | float x => exact h.elim
  | int n => exact hn

theorem Natural.eq_of_toInt {a b : Number} (ha : a.Natural) (hb : b.Natural)
    (h : a.toInt = b.toInt) : a = b :=
  ha.whole.eq_of_toInt hb.whole h

/-- The sum of natural numbers is exact as long as it is a word. -/
theorem Natural.add {a b : Number} (ha : a.Natural) (hb : b.Natural)
    (h : a.toInt + b.toInt < 2 ^ 63) : (a + b).Natural ∧ (a + b).toInt = a.toInt + b.toInt := by
  have ha' := ha.toInt_nonneg
  have hb' := hb.toInt_nonneg
  obtain ⟨hwhole, hvalue⟩ := ha.whole.add hb.whole (by omega)
  exact ⟨hwhole.natural (by omega), hvalue⟩

/-- The product of natural numbers is exact as long as it is a word. -/
theorem Natural.mul {a b : Number} (ha : a.Natural) (hb : b.Natural)
    (h : a.toInt * b.toInt < 2 ^ 63) : (a * b).Natural ∧ (a * b).toInt = a.toInt * b.toInt := by
  have hnonneg := Int.mul_nonneg ha.toInt_nonneg hb.toInt_nonneg
  obtain ⟨hwhole, hvalue⟩ := ha.whole.mul hb.whole (by omega)
  exact ⟨hwhole.natural (by omega), hvalue⟩

theorem natural_ofInt {n : Int} (hlow : 0 ≤ n) (hhigh : n < 2 ^ 63) :
    (Number.ofInt n).Natural ∧ (Number.ofInt n).toInt = n := by
  rw [ofInt_eq ⟨by omega, hhigh⟩]
  obtain ⟨hwhole, hvalue⟩ := whole_ofInt (n := n) (by omega)
  exact ⟨hwhole.natural (by omega), hvalue⟩

theorem sum_nonneg {ns : List Number} (h : ∀ n ∈ ns, n.Natural) : 0 ≤ (ns.map toInt).sum := by
  refine List.sum_nonneg fun a ha => ?_
  obtain ⟨n, hn, rfl⟩ := List.mem_map.1 ha
  exact (h n hn).toInt_nonneg

end Number

/-! ### Sums of numbers -/

namespace Expr

theorem value_sumOfNumbers (symbols : String → ℤ) (ns : List Number) :
    (sumOfNumbers ns).value (.integers symbols) = (ns.map Number.toInt).sum := by
  unfold sumOfNumbers
  rw [value_sum, List.map_map]
  exact congrArg List.sum (List.map_congr_left fun n _ => value_num _ n)

theorem bulk_sumOfNumbers (w : ℕ) (ns : List Number) :
    (sumOfNumbers ns).bulk w = (ns.map fun n => max 1 n.toInt.natAbs).sum := by
  unfold sumOfNumbers
  rw [bulk_sum, List.map_map]
  exact congrArg List.sum (List.map_congr_left fun n _ => value_num _ n)

/-- A number can stand for what it is the value of. -/
theorem Reduces.to_num {a : Expr} (ha : a.Everywhere Plain) {n : Number} (hn : n.Natural)
    (hvalue : ∀ symbols, a.value (.integers symbols) = n.toInt) :
    Reduces a (.num n) := by
  cases n with
  | float x => exact hn.elim
  | int n => exact .to_int ha hvalue

theorem reduces_sumOfNumbers {ns : List Number} (hne : ns ≠ []) (hns : ∀ n ∈ ns, n.Natural)
    {r : Number} (hr : r.Natural) (h : r.toInt = (ns.map Number.toInt).sum) :
    (sumOfNumbers ns).Reduces (.num r) := by
  refine .to_num (plain_sumOfNumbers hne hns) hr fun symbols => ?_
  rw [value_sumOfNumbers, h]

end Expr

/-- A sum of numbers can stand for another one with the same sum that is not smaller. -/
theorem Expr.reduces_of_sums {ns ms : List Number} (hne : ms ≠ []) (hms : ∀ n ∈ ms, n.Natural)
    (hsum : (ms.map Number.toInt).sum = (ns.map Number.toInt).sum)
    (hmagnitude : (ms.map fun n => max 1 n.toInt.natAbs).sum ≤
      (ns.map fun n => max 1 n.toInt.natAbs).sum) :
    (sumOfNumbers ns).Reduces (sumOfNumbers ms) := by
  refine .of_replaceable (replaceable_of_not_number rfl) (plain_sumOfNumbers hne hms)
    (fun symbols => ?_) fun w _ => ?_
  · rw [value_sumOfNumbers, value_sumOfNumbers, hsum]
  · rw [bulk_sumOfNumbers, bulk_sumOfNumbers]
    exact hmagnitude

/-- Changing a sum of numbers to its value. -/
theorem meets_change_sum {ns : List Number} (hne : ns ≠ []) (hns : ∀ n ∈ ns, n.Natural)
    {r : Number} (hr : r.Natural) (h : r.toInt = (ns.map Number.toInt).sum)
    (explanation : Option String) (approximate : Bool) :
    Meets .addition s (Work.changeWith ⟨sumOfNumbers ns, .num r, explanation, approximate⟩)
      fun _ => True := by
  refine Work.meets_changeWith fun tree => ?_
  refine Progress.addition_replace hne hns (Expr.reduces_sumOfNumbers hne hns hr h) ?_
    (by simp [Replacement.asTerms]) tree
  intro t ht
  rw [List.mem_singleton.1 ht]
  rfl

/-! ### Remarks -/

theorem meets_pause : Meets p s Work.pause fun _ => True :=
  Work.meets_remark "" true

/-- A remark in the words for a key. -/
theorem meets_remarkOn (key verbose concise : String) (payload : Payload) :
    Meets p s (do Work.remark (← Work.wording key verbose concise payload)) fun _ => True :=
  (Work.meets_wording ..).bind fun _ _ _ _ => Work.meets_remark _ false

theorem meets_remarkOnColumn (column : Column) : Meets p s (remarkOnColumn column) fun _ => True := by
  unfold remarkOnColumn
  refine .ite (fun _ => ?_) fun _ => .pure trivial
  extract_lets sum digit addition finish
  have hfinish : ∀ suffix t, Meets p t (finish suffix) fun _ => True := fun suffix t =>
    Work.meets_options.bind fun options t _ _ =>
      .ite (fun _ => Work.meets_remark _ false) fun _ => .pure trivial
  refine .ite (fun _ => ?_) fun _ => .ite (fun _ => ?_) fun _ => ?_
  · exact (Work.meets_wording ..).bind fun suffix t _ _ => hfinish suffix t
  · exact (Work.meets_wording ..).bind fun suffix t _ _ => hfinish suffix t
  · exact hfinish "" s

theorem meets_remarkOnCarry (left : Nat) (carry : Int) :
    Meets p s (remarkOnCarry left carry) fun _ => True := by
  unfold remarkOnCarry
  refine Work.meets_options.bind fun options t _ _ => ?_
  exact .ite (fun _ => meets_remarkOn ..) fun _ => .pure trivial

theorem meets_calculatorMessage (operation : Operation) (expression result : Expr)
    (operands : List Number) :
    Meets p s (calculatorMessage operation expression result operands) fun _ => True := by
  unfold calculatorMessage
  refine .look fun _ => ?_
  dsimp only
  exact .ite (fun _ => Work.meets_ask _) fun _ => .pure trivial

/-! ### Addition -/

/-- Adding in columns. -/
theorem meets_addComponents {components : List Number} (hne : components ≠ [])
    (h : ∀ c ∈ components, c.Natural) (hbound : (components.map Number.toInt).sum < 2 ^ 63) :
    Meets .addition s (addComponents components)
      fun r => r.Natural ∧ r.toInt = (components.map Number.toInt).sum := by
  unfold addComponents
  extract_lets columns result
  have hresult : result.Natural ∧ result.toInt = (components.map Number.toInt).sum := by
    have hwhole : ∀ c ∈ components, c.Whole := fun c hc => (h c hc).whole
    have hnonneg := Number.sum_nonneg h
    have htotal : columns.total? = some _ :=
      ColumnSum.total?_of_whole hne hwhole ⟨by omega, hbound⟩
    have hright : columns.right = 0 := ColumnSum.right_of_whole hwhole
    unfold result
    rw [htotal, hright]
    exact Number.natural_ofInt hnonneg hbound
  refine Work.meets_options.bind fun options t _ _ => ?_
  refine .iteBind (fun _ => Work.meets_remark _ false) fun _ t _ => ?_
  refine (Meets.forM fun column _ t => meets_remarkOnColumn column).bind fun _ t _ _ => ?_
  refine (meets_remarkOnCarry ..).bind fun _ t _ _ => ?_
  refine (Work.meets_wording ..).bind fun text t _ _ => ?_
  refine (Work.meets_remark text false).bind fun _ t _ _ => ?_
  exact (meets_change_sum hne h hresult.1 hresult.2 none false).bind fun _ t _ _ => .pure hresult

theorem Number.Natural.sum_components {n : Number} (hn : n.Natural) :
    n.components ≠ [] ∧ (∀ c ∈ n.components, c.Natural) ∧
      (n.components.map Number.toInt).sum = n.toInt ∧
      (n.components.map fun c => max 1 c.toInt.natAbs).sum = max 1 n.toInt.natAbs := by
  obtain ⟨hne, hparts, hsum, hmagnitude⟩ := hn.whole.sum_components
  refine ⟨hne, fun c hc => ?_, hsum, hmagnitude⟩
  exact (hparts c hc).1.natural ((hparts c hc).2.1 hn.toInt_nonneg)

/-- Adding two natural numbers. -/
theorem meets_add {a b : Number} (ha : a.Natural) (hb : b.Natural)
    (hbound : a.toInt + b.toInt < 2 ^ 63) :
    Meets .addition s (add a b) fun r => r.Natural ∧ r.toInt = a.toInt + b.toInt := by
  have hquick := ha.add hb hbound
  obtain ⟨hne, haparts, hasum, hamagnitude⟩ := ha.sum_components
  obtain ⟨-, hbparts, hbsum, hbmagnitude⟩ := hb.sum_components
  unfold add
  extract_lets expression quick operation components finish
  have hpair : ∀ n ∈ [a, b], n.Natural := by simp [ha, hb]
  have hcomponents : ∀ c ∈ components, c.Natural := by
    intro c hc
    rcases List.mem_append.1 hc with hc | hc
    · exact haparts c hc
    · exact hbparts c hc
  have hcomponents_ne : components ≠ [] := by simp [components, hne]
  have hsum : (components.map Number.toInt).sum = a.toInt + b.toInt := by
    rw [List.map_append, List.sum_append, hasum, hbsum]
  have hchange : ∀ (t : Sheet) explanation,
      Meets .addition t (Work.changeWith ⟨expression, .num quick, explanation, false⟩)
        fun _ => True := fun t explanation =>
    meets_change_sum (by simp) hpair hquick.1 (by simp [hquick.2]) explanation false
  refine Work.meets_options.bind fun options t _ _ => ?_
  refine .ite (fun _ => ?_) fun _ => .ite (fun _ => ?_) fun _ => .ite (fun _ => ?_) fun _ => ?_
  · exact (hchange t none).bind fun _ t _ _ => .pure hquick
  · refine (meets_calculatorMessage ..).bind fun message t _ _ => ?_
    exact (hchange t (some message)).bind fun _ t _ _ => .pure hquick
  · exact (hchange t none).bind fun _ t _ _ => .pure hquick
  · extract_lets rest
    have hfinish : ∀ r t, r.Natural ∧ r.toInt = a.toInt + b.toInt →
        Meets .addition t (finish r) fun r => r.Natural ∧ r.toInt = a.toInt + b.toInt :=
      fun r t hr => meets_pause.bind fun _ t _ _ => .pure hr
    have hsplit : (sumOfNumbers [a, b]).Reduces (sumOfNumbers components) := by
      refine Expr.reduces_of_sums hcomponents_ne hcomponents (by simp [hsum]) (le_of_eq ?_)
      rw [List.map_append, List.sum_append, hamagnitude, hbmagnitude]
      simp
    have hrest : ∀ u t, Meets .addition t (rest u)
        fun r => r.Natural ∧ r.toInt = a.toInt + b.toInt := by
      intro u t
      have hdecompose : Meets .addition t (Work.change expression (sumOfNumbers components))
          fun _ => True := by
        refine Work.meets_changeWith fun tree => ?_
        refine Progress.addition_replace (by simp) hpair hsplit (fun t ht => ?_) ?_ tree
        · obtain ⟨n, -, rfl⟩ := List.mem_map.1 ht
          rfl
        · show components.map Expr.num ≠ []
          simpa using hcomponents_ne
      refine hdecompose.bind fun _ t _ _ => .ite (fun _ => ?_) fun _ => ?_
      · refine (meets_addComponents hcomponents_ne hcomponents (by omega)).bind fun r t _ hr => ?_
        exact hfinish r t ⟨hr.1, by omega⟩
      · refine (meets_change_sum hcomponents_ne hcomponents hquick.1 ?_ none false).bind
          fun _ t _ _ => hfinish quick t hquick
        rw [hquick.2, hsum]
    refine .ite (fun _ => ?_) fun _ => hrest () t
    refine (Work.meets_wording ..).bind fun text t _ _ => ?_
    exact (Work.meets_remark text false).bind fun u t _ _ => hrest u t

end Workings
