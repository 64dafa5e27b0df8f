import Workings.Proofs.Turning

/-!
# Sums replay

Adding two numbers puts their sum in the place of the two, whichever way is taken and whatever stands
beside them in a longer sum (`turns_add`): the numbers, their components and the total stand one after the
other at the front of what remains to be added. So adding is exact on a strict sheet, where every change
has to find its part (`add_exact`).
-/

namespace Workings

namespace Target

/-- Numbers are compared as they are. -/
@[simp]
theorem plainTerms_map_num (values : List Number) :
    plainTerms (values.map Expr.num) = values.map .num := by
  induction values with
  | nil => rfl
  | cons n values ih => rw [List.map_cons, plainTerms, ih] <;> intros <;> contradiction

/-- Numbers at the front of a sum are taken out of it. -/
theorem sumRest?_numbers {wanted : List Number} (h : wanted ≠ []) (rest : List Number) :
    sumRest? ((wanted ++ rest).map Expr.num) (.sum (wanted.map .num)) = some (rest.map .num) := by
  rw [sumRest?, plainTerms_map_num, plainTerms_map_num, List.map_append]
  exact leftover?_append (by simpa using h) _

end Target

namespace Expr

/-! ### Parts of sums -/

variable {terms rest : List Expr} {part result : Expr}

@[simp]
theorem sum_beq_cons (a b : Expr) (as bs : List Expr) :
    (sum (a :: as) == sum (b :: bs)) = (a == b && sum as == sum bs) := rfl

/-- Sums of different length are different. -/
theorem sum_beq_of_length {as bs : List Expr} (h : as.length ≠ bs.length) :
    (sum as == sum bs) = false := by
  induction as generalizing bs with
  | nil =>
    cases bs with
    | nil => exact absurd rfl h
    | cons b bs => rfl
  | cons a as ih =>
    cases bs with
    | nil => rfl
    | cons b bs => rw [sum_beq_cons, ih (by simpa using h), Bool.and_false]

theorem count_of_sumRest? (h : Target.sumRest? terms part = some rest) :
    0 < Target.count ⟨part, part.neg, true⟩ (sum terms) := by
  rw [Nat.pos_iff_ne_zero, ne_eq, Target.count_sum_eq_zero_iff]
  rintro ⟨-, hpart, -⟩
  rw [h] at hpart
  cases hpart

theorem putPart_sum (hwhole : (sum terms).isWhole part = false)
    (h : Target.sumRest? terms part = some rest) :
    (sum terms).putPart part result = unwrap .sum (Replacement.asTerms result ++ rest) := by
  refine Replacement.apply_of_partOfSum? (r := ⟨⟨part, part.neg, true⟩, result, result.neg⟩) hwhole ?_
  rw [Replacement.partOfSum?, if_pos rfl, h]
  rfl

/-- Terms are taken out of a sum, and the result takes their place. -/
theorem rewrites_terms (result : Expr) (hwhole : (sum terms).hasWhole part = false)
    (h : Target.sumRest? terms part = some rest) :
    (sum terms).Rewrites part result (unwrap .sum (Replacement.asTerms result ++ rest)) := by
  have hrewrites := rewrites_part result hwhole (count_of_sumRest? h)
  rw [hasWhole_sum, Bool.or_eq_false_iff] at hwhole
  rwa [putPart_sum hwhole.1 h] at hrewrites

/-! ### Numbers that remain to be added -/

/-- The sum of numbers as it stands in the tree while they are added. The last one stands alone. -/
def remaining (values : List Number) : Expr :=
  unwrap .sum (values.map .num)

theorem remaining_of_length {values : List Number} (h : 2 ≤ values.length) :
    remaining values = sumOfNumbers values := by
  match values with
  | _ :: _ :: _ => rfl

theorem asTerms_remaining (values : List Number) :
    Replacement.asTerms (remaining values) = values.map .num := by
  match values with
  | [] | [_] | _ :: _ :: _ => rfl

/-- A part of a sum of numbers does not occur as a whole. -/
theorem hasWhole_sumOfNumbers {values wanted : List Number} (h : values.length ≠ wanted.length) :
    (sumOfNumbers values).hasWhole (sumOfNumbers wanted) = false := by
  have hlength : (sum (values.map num) == sum (wanted.map num)) = false :=
    sum_beq_of_length (by simpa using h)
  have hterm : ∀ n : Number, (num n).hasWhole (sumOfNumbers wanted) = false := fun n => by
    rw [hasWhole_num]
    rfl
  rw [sumOfNumbers, hasWhole_sum, Bool.or_eq_false_iff, List.any_eq_false]
  refine ⟨?_, fun e he => ?_⟩
  · rw [isWhole, sumOfNumbers, hlength]
    rfl
  · obtain ⟨n, -, rfl⟩ := List.mem_map.1 he
    exact (hterm n).trans_ne Bool.false_ne_true

/-- Numbers at the front of what remains to be added are replaced by others. -/
theorem rewrites_remaining (wanted values rest : List Number) (h : 2 ≤ wanted.length) :
    (remaining (wanted ++ rest)).Rewrites (sumOfNumbers wanted) (remaining values)
      (remaining (values ++ rest)) := by
  cases rest with
  | nil =>
    rw [List.append_nil, List.append_nil, remaining_of_length h]
    exact rewrites_self _ _
  | cons n rest =>
    have hne : wanted ≠ [] := List.ne_nil_of_length_pos (Nat.zero_lt_of_lt h)
    have hparts : (sumOfNumbers (wanted ++ n :: rest)).hasWhole (sumOfNumbers wanted) = false :=
      hasWhole_sumOfNumbers (by simp)
    have hrewrites := rewrites_terms (remaining values) hparts
      (Target.sumRest?_numbers hne (n :: rest))
    rw [asTerms_remaining, ← List.map_append] at hrewrites
    rwa [remaining_of_length (by rw [List.length_append]; omega)]

end Expr

open Work (Turns turns_options turns_changeWith stays_wording stays_remark Delivers delivers_options
  delivers_changeWith delivers_remark delivers_wording)

/-! ### Adding two numbers -/

section

variable {o : Options} {a b c : Int64}

/-- The components of two numbers add up to their sum. -/
theorem components_of_sum (ha : (Number.int a).Whole) (hb : (Number.int b).Whole) :
    2 ≤ ((Number.int a).components ++ (Number.int b).components).length ∧
      (∀ n ∈ (Number.int a).components ++ (Number.int b).components, n.Whole) ∧
      (((Number.int a).components ++ (Number.int b).components).map Number.toInt).sum =
        a.toInt + b.toInt := by
  obtain ⟨hane, haparts, hasum, -⟩ := ha.sum_components
  obtain ⟨hbne, hbparts, hbsum, -⟩ := hb.sum_components
  have halength := List.length_pos_iff.2 hane
  have hblength := List.length_pos_iff.2 hbne
  refine ⟨by rw [List.length_append]; omega, fun n hn => ?_, ?_⟩
  · rcases List.mem_append.1 hn with hn | hn
    · exact (haparts n hn).1
    · exact (hbparts n hn).1
  · rw [List.map_append, List.sum_append, hasum, hbsum]
    rfl

/-- Adding the first two of the numbers that remain puts their sum in their place. -/
theorem turns_add (ha : (Number.int a).Whole) (hb : (Number.int b).Whole)
    (hc : c.toInt = a.toInt + b.toInt) (rest : List Number) :
    Turns o (Expr.remaining (.int a :: .int b :: rest)) (add (.int a) (.int b)) (.int c)
      (some (Expr.remaining (.int c :: rest))) := by
  have hpair : (Expr.remaining (.int a :: .int b :: rest)).Rewrites (sumOfNumbers [.int a, .int b])
      (.num (.int c)) (Expr.remaining (.int c :: rest)) :=
    Expr.rewrites_remaining [.int a, .int b] [.int c] rest le_rfl
  obtain ⟨hlength, hwhole, hsum⟩ := components_of_sum ha hb
  unfold add
  extract_lets expression quick operation components finish
  have hquick : quick = .int c := by
    show Number.int a + Number.int b = .int c
    rw [Number.int_add (hc ▸ inRange_toInt c), ← hc, Int64.ofInt_toInt]
  have hsplit : (Expr.remaining (.int a :: .int b :: rest)).Rewrites expression
      (sumOfNumbers components) (Expr.remaining (components ++ rest)) := by
    rw [← Expr.remaining_of_length hlength]
    exact Expr.rewrites_remaining [.int a, .int b] components rest le_rfl
  have htotal : (Expr.remaining (components ++ rest)).Rewrites (sumOfNumbers components)
      (.num (.int c)) (Expr.remaining (.int c :: rest)) :=
    Expr.rewrites_remaining _ [.int c] rest hlength
  have hfinish : ∀ tree, Turns o tree (finish (.int c)) (.int c) tree := fun tree =>
    (stays_remark "" true).turns fun _ => .pure _
  rw [hquick]
  refine turns_options.bind ?_
  extract_lets split
  have hcomponents : components ≠ [] := List.ne_nil_of_length_pos (Nat.zero_lt_of_lt hlength)
  have hsplits : ∀ u, Turns o (Expr.remaining (.int a :: .int b :: rest)) (split u) (.int c)
      (some (Expr.remaining (.int c :: rest))) := by
    refine fun u => (turns_changeWith hsplit none false).bind (.ite (fun _ => ?_) fun _ => ?_)
    · exact (turns_addComponents hcomponents hwhole (hc.trans hsum.symm) htotal).bind (hfinish _)
    · exact (turns_changeWith htotal none false).bind ((Turns.pure _).bind (hfinish _))
  refine .ite (fun _ => (turns_changeWith hpair none false).bind (.pure _)) fun _ => ?_
  refine .ite (fun _ => ?_) fun _ => ?_
  · refine (stays_calculatorMessage ..).turns fun message => ?_
    exact (turns_changeWith hpair (some message) false).bind (.pure _)
  refine .ite (fun _ => (turns_changeWith hpair none false).bind (.pure _)) fun _ => ?_
  refine .ite (fun _ => ?_) fun _ => hsplits ()
  exact (stays_wording ..).turns fun text => (stays_remark text false).turns hsplits

/-- Adding words with an opposite gives their sum, wherever they stand. -/
theorem delivers_add {a b c : Int64} (ha : a ≠ Int64.minValue) (hb : b ≠ Int64.minValue)
    (hc : c.toInt = a.toInt + b.toInt) : Delivers o (add (.int a) (.int b)) fun n => n = .int c := by
  obtain ⟨hlength, hwhole, hsum⟩ :=
    components_of_sum (show (Number.int a).Whole from ha) (show (Number.int b).Whole from hb)
  unfold add
  extract_lets expression quick operation components finish
  have hquick : quick = .int c := by
    show Number.int a + Number.int b = .int c
    rw [Number.int_add (hc ▸ inRange_toInt c), ← hc, Int64.ofInt_toInt]
  have hcomponents : components ≠ [] := List.ne_nil_of_length_pos (Nat.zero_lt_of_lt hlength)
  have hfinish : ∀ result, result = .int c → Delivers o (finish result) fun n => n = .int c :=
    fun result hresult => (delivers_remark "" true).andThen fun _ => .pure hresult
  have hchange : ∀ explanation,
      Delivers o (Work.changeWith ⟨expression, .num quick, explanation, false⟩ >>= fun _ => pure quick)
        fun n => n = .int c :=
    fun explanation => (delivers_changeWith _).andThen fun _ => .pure hquick
  refine delivers_options.andThen fun options => ?_
  extract_lets split
  have hsplit : ∀ u, Delivers o (split u) fun n => n = .int c := by
    refine fun u => (delivers_changeWith _).andThen fun _ => .ite (fun _ => ?_) fun _ => ?_
    · refine (delivers_addComponents components).bind fun result hresult => ?_
      exact hfinish result (hresult hcomponents hwhole c (hc.trans hsum.symm))
    · refine (delivers_changeWith _).andThen fun _ => ?_
      exact hfinish _ hquick
  refine .ite (fun _ => hchange none) fun _ => .ite (fun _ => ?_) fun _ => ?_
  · exact (delivers_calculatorMessage ..).andThen fun message => hchange (some message)
  refine .ite (fun _ => hchange none) fun _ => .ite (fun _ => ?_) fun _ => hsplit ()
  exact (delivers_wording ..).andThen fun text => (delivers_remark text false).andThen hsplit

/-- Addition is exact. Under any options, adding two words that have an opposite on a strict sheet puts
their sum in the place of their sum in the tree, as long as it is a word. -/
theorem add_exact {a b : Int64} (ha : a ≠ Int64.minValue) (hb : b ≠ Int64.minValue)
    (hsum : InRange (a.toInt + b.toInt)) {s : Sheet} (hstrict : s.strict = true)
    (htree : s.tree = sumOfNumbers [.int a, .int b]) :
    ∃ t, Work.exec (add (.int a) (.int b)) s = (.ok (.int (a + b)), t) ∧
      t.tree = .num (.int (a + b)) := by
  have hvalue : (a + b).toInt = a.toInt + b.toInt := by
    rw [Int64.toInt_add]
    exact Int.bmod_eq_of_le hsum.1 hsum.2
  have hturns := turns_add (o := s.options) (show (Number.int a).Whole from ha) hb hvalue []
  obtain ⟨t, hexec, hstands, -⟩ := hturns.exists_run ⟨rfl, hstrict, htree⟩
  exact ⟨t, hexec, hstands.tree⟩

/-- `5304 - 876` is split into `5000 + 300 + 4 - 800 - 70 - 6`, and the first column borrows. -/
theorem add_exact_borrow :
    ∃ t, Work.exec (add (.int 5304) (.int (-876)))
        (Sheet.new (sumOfNumbers [.int 5304, .int (-876)]) {} {} true) = (.ok (.int 4428), t) ∧
      t.tree = .num (.int 4428) :=
  add_exact (a := 5304) (b := -876) (by decide) (by decide) ⟨by decide, by decide⟩ rfl rfl

end

end Workings
