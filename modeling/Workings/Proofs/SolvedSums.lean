import Workings.Proofs.NormalForm
import Workings.Proofs.ReplayedSums

/-!
# Sums of integers are solved exactly

Numbers are added from left to right, and the total so far stands in front of the numbers that remain
(`turns_addAll`). On the way the tree stands in a block of its own, from which it is taken when all numbers
are added (`turns_addNumbers`). So a sum of words is worked out to their sum, as long as all sums on the
way are words with an opposite (`solve_sum_exact`).

Terms that have words for their values are added in the same way (`delivered_sum`). Nothing is known of the
tree then, and a part that is not found in it may end the work.
-/

namespace Workings

open Work (Turns turns_changeWith Delivered Delivers delivers_become)

section

variable {o : Options} {before : Expr}

/-! ### Adding numbers from left to right -/

/-- The numbers are added one after the other to the total so far. -/
theorem turns_addAll {total c : Int64} {ns : List Int64} (htotal : total ≠ Int64.minValue)
    (hns : ∀ n ∈ ns, n ≠ Int64.minValue)
    (hfronts : ∀ front, front <+: ns → (total.toInt + (front.map Int64.toInt).sum).natAbs < 2 ^ 63)
    (hc : c.toInt = total.toInt + (ns.map Int64.toInt).sum) :
    Turns o (Expr.remaining (.int total :: ns.map .int))
      (Simplify.addAll (.int total) (ns.map .int)) (.int c) (some (.num (.int c))) := by
  induction ns generalizing total with
  | nil =>
    obtain rfl : c = total := Int64.toInt_inj.1 (by simpa using hc)
    exact .pure _
  | cons n ns ih =>
    obtain ⟨hn, hns⟩ := List.forall_mem_cons.1 hns
    have hnext : (total.toInt + n.toInt).natAbs < 2 ^ 63 := by simpa using hfronts [n] (by simp)
    obtain ⟨hwhole, hvalue⟩ := Number.whole_ofInt hnext
    change (Int64.ofInt (total.toInt + n.toInt)).toInt = _ at hvalue
    refine (turns_add htotal hn hvalue (ns.map .int)).bind (ih hwhole hns (fun front hfront => ?_) ?_)
    · have hlonger := hfronts (n :: front) (List.cons_prefix_cons.2 ⟨rfl, hfront⟩)
      rwa [List.map_cons, List.sum_cons, ← Int.add_assoc, ← hvalue] at hlonger
    · rw [hvalue, hc, List.map_cons, List.sum_cons, Int.add_assoc]

/-- Work in a block that holds the tree alone finds the new tree in it. -/
theorem turns_withBlock {α β : Type} {work : Nat → Work α} {f : α → Expr → β} {a : α} {after : Expr}
    (hwork : ∀ id, Turns o before (work id) a after) :
    Turns o before (Work.withBlock [before] fun id => do
      let result ← work id
      return f result (((← get).blockItem? id 0).getD before)) (f a after) after := by
  refine ⟨fun s hs => ?_⟩
  have hopened : Sheet.Stands o before { s with blocks := s.blocks ++ [[before]] } :=
    ⟨hs.options, hs.strict, hs.tree⟩
  obtain ⟨t, hexec, ht, hleads⟩ := (hwork s.blocks.length).exists_run hopened
  have hitem : t.blockItem? s.blocks.length 0 = some after := by
    have hblock := hleads.block s.blocks.length
      ((Simplify.block_append s [before]).trans (congrArg ([·]) hs.tree.symm))
    rw [Sheet.blockItem?, hblock, ht.tree]
    rfl
  rw [Work.exec_withBlock, Work.exec_bind_ok hexec, Work.exec_get_bind, hitem]
  exact .ok ⟨ht.options, ht.strict, ht.tree⟩ hleads.close

/-- Adding the numbers of a sum of numbers gives their total, and what is left of the sum is the total
unless nothing had to be added. -/
theorem turns_addNumbers {ns : List Int64} (hns : ∀ n ∈ ns, n ≠ Int64.minValue)
    (hfronts : ∀ front, front <+: ns → ((front.map Int64.toInt).sum).natAbs < 2 ^ 63) {c : Int64}
    (hc : c.toInt = (ns.map Int64.toInt).sum) :
    ∃ (total? : Option Number) (current : Expr),
      Turns o (sumOfNumbers (ns.map .int))
        (Simplify.addNumbers (sumOfNumbers (ns.map .int)) (ns.map .int)) (total?, current) current ∧
      total?.getD 0 = .int c ∧ ((current == .num (.int c)) = true → current = .num (.int c)) := by
  match ns with
  | [] =>
    obtain rfl : c = 0 := Int64.toInt_inj.1 hc
    exact ⟨none, _, .pure _, rfl, fun h => nomatch h⟩
  | [only] =>
    obtain rfl : c = only := Int64.toInt_inj.1 (by simpa using hc)
    exact ⟨some (.int c), _, .pure _, rfl, fun h => nomatch h⟩
  | first :: second :: rest =>
    obtain ⟨hfirst, hrest⟩ := List.forall_mem_cons.1 hns
    refine ⟨some (.int c), .num (.int c), turns_withBlock (f := fun total tree => (some total, tree))
      fun id => turns_addAll hfirst hrest (fun front hfront => ?_) ?_, rfl, fun _ => rfl⟩
    · have hlonger := hfronts (first :: front) (List.cons_prefix_cons.2 ⟨rfl, hfront⟩)
      rwa [List.map_cons, List.sum_cons] at hlonger
    · rw [hc, List.map_cons, List.sum_cons]

/-! ### Sums -/

/-- Siblings that are taken for themselves stay. -/
theorem turns_siblings {simplify : Simplifier} {trees : List Expr}
    (h : ∀ e ∈ trees, ∀ s : Sheet, s.options = o → Work.exec (simplify e) s = (.ok e, s)) :
    Turns o before (Simplify.siblings simplify trees) trees before := by
  refine ⟨fun s hs => ?_⟩
  rw [Simplify.exec_siblings fun e he => h e he _ hs.options]
  exact .ok hs (.refl s)

/-- A node that has become another one is replaced by it. -/
theorem turns_become {current result : Expr} (h : (current == result) = true → current = result) :
    Turns o current (Simplify.become current result) () result := by
  unfold Simplify.become
  refine .ite (fun _ => turns_changeWith (Expr.rewrites_self current result) none false) fun hsame => ?_
  obtain rfl := h (by simpa using hsame)
  exact .pure ()

/-- A sum of words is simplified to their sum. -/
theorem turns_sum {ns : List Int64} (hns : ∀ n ∈ ns, n ≠ Int64.minValue)
    (hfronts : ∀ front, front <+: ns → ((front.map Int64.toInt).sum).natAbs < 2 ^ 63)
    (hclamp : ∀ n ∈ ns, o.clamp (.int n) = .int n) {c : Int64}
    (hc : c.toInt = (ns.map Int64.toInt).sum) (depth : Nat) :
    Turns o (sumOfNumbers (ns.map .int))
      (Expr.simplifyAt (depth + 2) (sumOfNumbers (ns.map .int))) (.num (.int c)) (Expr.num (.int c)) := by
  obtain ⟨total?, current, hnumbers, htotal, hcurrent⟩ := turns_addNumbers (o := o) hns hfronts hc
  have hsiblings : ∀ e ∈ (ns.map Number.int).map Expr.num, ∀ s : Sheet, s.options = o →
      Work.exec (Expr.simplifyAt (depth + 1) e) s = (.ok e, s) := by
    rintro e he s rfl
    obtain ⟨_, hnumber, rfl⟩ := List.mem_map.1 he
    obtain ⟨n, hn, rfl⟩ := List.mem_map.1 hnumber
    exact Simplify.exec_literal (hclamp n hn)
  show Turns o _ (Simplify.sum _ _) _ _
  unfold Simplify.sum
  refine (turns_siblings hsiblings).bind ?_
  simp only [Expr.any_isSum_numbers, Bool.false_eq_true, if_false, Expr.filterMap_numbers,
    Expr.filter_numbers, List.isEmpty_nil, if_true]
  refine hnumbers.bind ?_
  dsimp only
  rw [htotal]
  exact (turns_become hcurrent).bind (.pure _)

/-! ### Wherever a sum stands -/

/-- Numbers are added one after the other to the total so far. -/
theorem delivers_addAll {total c : Int64} {ns : List Int64} (htotal : total ≠ Int64.minValue)
    (hns : ∀ n ∈ ns, n ≠ Int64.minValue)
    (hfronts : ∀ front, front <+: ns → (total.toInt + (front.map Int64.toInt).sum).natAbs < 2 ^ 63)
    (hc : c.toInt = total.toInt + (ns.map Int64.toInt).sum) :
    Delivers o (Simplify.addAll (.int total) (ns.map .int)) fun n => n = .int c := by
  induction ns generalizing total with
  | nil =>
    obtain rfl : c = total := Int64.toInt_inj.1 (by simpa using hc)
    exact .pure rfl
  | cons n ns ih =>
    obtain ⟨hn, hns⟩ := List.forall_mem_cons.1 hns
    have hnext : (total.toInt + n.toInt).natAbs < 2 ^ 63 := by simpa using hfronts [n] (by simp)
    obtain ⟨hwhole, hvalue⟩ := Number.whole_ofInt hnext
    change (Int64.ofInt (total.toInt + n.toInt)).toInt = _ at hvalue
    refine (delivers_add htotal hn hvalue).bind fun next hnext => ?_
    subst hnext
    refine ih hwhole hns (fun front hfront => ?_) ?_
    · have hlonger := hfronts (n :: front) (List.cons_prefix_cons.2 ⟨rfl, hfront⟩)
      rwa [List.map_cons, List.sum_cons, ← Int.add_assoc, ← hvalue] at hlonger
    · rw [hvalue, hc, List.map_cons, List.sum_cons, Int.add_assoc]

/-- Numbers of a sum are added to their total. -/
theorem delivers_addNumbers {ns : List Int64} (hns : ∀ n ∈ ns, n ≠ Int64.minValue)
    (hfronts : ∀ front, front <+: ns → ((front.map Int64.toInt).sum).natAbs < 2 ^ 63) {c : Int64}
    (hc : c.toInt = (ns.map Int64.toInt).sum) (current : Expr) :
    Delivers o (Simplify.addNumbers current (ns.map .int)) fun found => found.1.getD 0 = .int c := by
  match ns with
  | [] =>
    obtain rfl : c = 0 := Int64.toInt_inj.1 hc
    exact .pure rfl
  | [only] =>
    obtain rfl : c = only := Int64.toInt_inj.1 (by simpa using hc)
    exact .pure rfl
  | first :: second :: rest =>
    obtain ⟨hfirst, hrest⟩ := List.forall_mem_cons.1 hns
    have hadded : Delivers o (Simplify.addAll (.int first) ((second :: rest).map .int))
        fun n => n = .int c := by
      refine delivers_addAll hfirst hrest (fun front hfront => ?_) ?_
      · have hlonger := hfronts (first :: front) (List.cons_prefix_cons.2 ⟨rfl, hfront⟩)
        rwa [List.map_cons, List.sum_cons] at hlonger
      · rw [hc, List.map_cons, List.sum_cons]
    rw [List.map_cons] at hadded ⊢
    unfold Simplify.addNumbers
    exact .withBlock fun id => hadded.bind fun total htotal => .look fun _ _ => .pure htotal

/-- A sum whose terms are simplified to words is simplified to the sum of these. -/
theorem delivered_sum {simplify : Simplifier} {terms : List Expr} {ns : List Int64} {s : Sheet}
    (hns : ∀ n ∈ ns, n ≠ Int64.minValue)
    (hfronts : ∀ front, front <+: ns → ((front.map Int64.toInt).sum).natAbs < 2 ^ 63) {c : Int64}
    (hc : c.toInt = (ns.map Int64.toInt).sum)
    (hsiblings : Delivered o (fun simplified => simplified = (ns.map Number.int).map .num)
      (Work.exec (Simplify.siblings simplify terms) s)) :
    Delivered o (fun result => result = .int c) (Work.exec (Simplify.sum simplify terms) s) := by
  unfold Simplify.sum
  refine hsiblings.bind fun simplified hsimplified => ?_
  subst hsimplified
  simp only [Expr.any_isSum_numbers, Bool.false_eq_true, if_false, Expr.filterMap_numbers,
    Expr.filter_numbers, List.isEmpty_nil, if_true]
  refine (delivers_addNumbers hns hfronts hc _).bind fun found hfound => ?_
  rw [hfound]
  exact (delivers_become ..).andThen fun _ => .pure rfl

/-! ### Solutions -/

/-- No values are put into a sum of numbers. -/
theorem replaceSymbols_sumOfNumbers (bindings : Bindings) (values : List Number) :
    bindings.replaceSymbols (sumOfNumbers values) = sumOfNumbers values := by
  show Expr.sum (Expr.allWithValues _ _) = Expr.sum _
  rw [Expr.allWithValues_eq_map, List.map_map]
  rfl

/-- Sums of integers are solved exactly. Whatever the options and the bindings are, a sum of words that are
taken for themselves is worked out to their sum, and so is the tree, if all sums on the way are words with
an opposite. -/
theorem solve_sum_exact {ns : List Int64} (hns : ∀ n ∈ ns, n ≠ Int64.minValue)
    (hfronts : ∀ front, front <+: ns →
      -2 ^ 63 < (front.map Int64.toInt).sum ∧ (front.map Int64.toInt).sum < 2 ^ 63)
    (options : Options) (hclamp : ∀ n ∈ ns, options.clamp (.int n) = .int n) (bindings : Bindings) :
    ∃ s, solve (sumOfNumbers (ns.map .int)) bindings options true =
        .ok (.int (.ofInt (ns.map Int64.toInt).sum), s) ∧
      s.status = .exact ∧ s.tree = .int (.ofInt (ns.map Int64.toInt).sum) := by
  have hsmall : ∀ front, front <+: ns → ((front.map Int64.toInt).sum).natAbs < 2 ^ 63 := by
    intro front hfront
    obtain ⟨hlow, hhigh⟩ := hfronts front hfront
    omega
  obtain ⟨-, hvalue⟩ := Number.whole_ofInt (hsmall ns (List.prefix_refl ns))
  change (Int64.ofInt _).toInt = _ at hvalue
  obtain ⟨t, hexec, hstands, hleads⟩ := (turns_sum hns hsmall hclamp hvalue 65534).exists_run
    (s := Sheet.new (sumOfNumbers (ns.map .int)) bindings options true) ⟨rfl, rfl, rfl⟩
  refine ⟨t, solve_of_simplify (replaceSymbols_sumOfNumbers bindings _) hexec (fun n hn => ?_) rfl,
    hleads.status, hstands.tree⟩
  cases hn
  rfl

/-- In `5304 - 876 + 5304 - 9732` a number occurs twice, and the last sum is zero. -/
theorem solve_sum_exact_cancelling :
    ∃ s, solve (sumOfNumbers ([5304, -876, 5304, -9732].map .int)) {} {} true = .ok (.int 0, s) ∧
      s.status = .exact ∧ s.tree = .int 0 := by
  have hns : ∀ n ∈ [5304, -876, 5304, -9732], n ≠ Int64.minValue := by
    simp only [List.forall_mem_cons]
    exact ⟨by decide, by decide, by decide, by decide, fun _ hn => nomatch hn⟩
  have hfronts : ∀ front ∈ List.inits [5304, -876, 5304, -9732],
      -2 ^ 63 < (front.map Int64.toInt).sum ∧ (front.map Int64.toInt).sum < 2 ^ 63 := by decide
  have hclamp (n : Int64) : ({} : Options).clamp (.int n) = .int n :=
    Simplify.clamp_int (by decide +kernel) rfl n
  have hsum : Int64.ofInt (List.map Int64.toInt [5304, -876, 5304, -9732]).sum = 0 := rfl
  have hsolves := solve_sum_exact hns (fun front hfront => hfronts front ((List.mem_inits _ _).2 hfront))
    {} (fun n _ => hclamp n) {}
  rw [hsum] at hsolves
  exact hsolves

end

end Workings
