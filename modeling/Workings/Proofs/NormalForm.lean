import Workings.Proofs.Simplifying
import Workings.Proofs.Simultaneous

/-!
# Expressions in normal form

In normal form an expression is a number, a symbol, a product of symbols behind at most one number, or a
sum of these in which no two terms have the same variable part. Nothing is left to do about such an
expression: when it is solved it is left as it is, and nothing is written down (`solve_normal`).

What a solution ends in need not be in normal form. A product in which another one is opened keeps the
factors in the order in which they come to stand, so `x * (2 * y)` is worked out to `x * 2 * y`, and only
when that is solved in its turn the number is moved to the front.
-/

namespace Workings

namespace Expr

/-- Factors about which nothing is left to do: two symbols or more, or symbols behind a number other
than `0` and `1`. -/
inductive NormalFactors : List Expr → Prop
  | symbols {names : List String} (two : 2 ≤ names.length) : NormalFactors (names.map sym)
  | scaled {n : Int64} {names : List String} (zero : n ≠ 0) (one : n ≠ 1) (symbols : names ≠ []) :
      NormalFactors (.num (.int n) :: names.map sym)

/-- A symbol, or a product about which nothing is left to do. -/
inductive NormalTerm : Expr → Prop
  | sym (name : String) : NormalTerm (.sym name)
  | prod {factors : List Expr} (h : NormalFactors factors) : NormalTerm (.prod factors)

/-- Two terms or more, at most one of them a number, with different variable parts. -/
structure NormalTerms (terms : List Expr) : Prop where
  two : 2 ≤ terms.length
  term : ∀ t ∈ terms, t.NormalTerm ∨ ∃ n : Int64, n ≠ 0 ∧ t = .num (.int n)
  number : (terms.filterMap number?).length ≤ 1
  apart : (terms.filterMap variablePart?).Pairwise fun a b => (a == b) = false

/-- Two terms or more, at most one of them a number. Their variable parts may be the same. -/
structure Summands (terms : List Expr) : Prop where
  two : 2 ≤ terms.length
  term : ∀ t ∈ terms, t.NormalTerm ∨ ∃ n : Int64, n ≠ 0 ∧ t = .num (.int n)
  number : (terms.filterMap number?).length ≤ 1

/-- An expression about which nothing is left to do. -/
inductive Normal : Expr → Prop
  | num (n : Int64) : Normal (.num (.int n))
  | term {e : Expr} (h : e.NormalTerm) : Normal e
  | sum {terms : List Expr} (h : NormalTerms terms) : Normal (.sum terms)

/-! ### Factors that are not opened -/

/-- A symbol, or a number other than `0` and `1`. -/
inductive Atom : Expr → Prop
  | sym (name : String) : Atom (.sym name)
  | num {n : Int64} (zero : n ≠ 0) (one : n ≠ 1) : Atom (.num (.int n))

theorem Atom.isValue_eq_false {e : Expr} (h : e.Atom) : e.isValue 0 = false ∧ e.isValue 1 = false := by
  cases h with
  | sym name => exact ⟨rfl, rfl⟩
  | @num n zero one =>
    exact ⟨show (n == 0) = false from beq_false_of_ne zero,
      show (n == 1) = false from beq_false_of_ne one⟩

theorem atom_symbols (names : List String) : ∀ f ∈ names.map sym, f.Atom := by
  intro f hf
  obtain ⟨name, -, rfl⟩ := List.mem_map.1 hf
  exact .sym name

section

variable {factors : List Expr} (h : ∀ f ∈ factors, f.Atom)

include h

theorem any_zero_of_atoms : factors.any (·.isValue 0) = false :=
  List.any_eq_false.2 fun f hf => Bool.eq_false_iff.1 (h f hf).isValue_eq_false.1

theorem filter_not_one_of_atoms : factors.filter (!·.isValue 1) = factors :=
  List.filter_eq_self.2 fun f hf => by rw [(h f hf).isValue_eq_false.2, Bool.not_false]

theorem flatFactors_of_atoms : flatFactors factors = factors := by
  fun_induction flatFactors factors with
  | case1 => rfl
  | case2 inner rest ih => cases h _ List.mem_cons_self
  | case3 factor rest _ hone ih => cases (h _ List.mem_cons_self).isValue_eq_false.2.symm.trans hone
  | case4 factor rest _ _ ih => rw [ih fun f hf => h f (.tail _ hf)]

/-- A product of atoms is normalized already. -/
theorem buildProd_of_atoms (htwo : 2 ≤ factors.length) : buildProd factors = .prod factors := by
  unfold buildProd
  dsimp only
  rw [flatFactors_of_atoms h, any_zero_of_atoms h, if_neg Bool.false_ne_true]
  match factors with
  | _ :: _ :: _ => rfl

theorem firstSum?_of_atoms : Simplify.firstSum? factors = none := by
  fun_induction Simplify.firstSum? factors with
  | case1 => rfl
  | case2 terms rest => cases h _ List.mem_cons_self
  | case3 factor rest _ ih => rw [ih fun f hf => h f (.tail _ hf)]; rfl

end

/-! ### Normal factors -/

namespace NormalFactors

variable {factors : List Expr}

theorem atom (h : NormalFactors factors) : ∀ f ∈ factors, f.Atom := by
  cases h with
  | symbols two => exact atom_symbols _
  | scaled zero one symbols => exact List.forall_mem_cons.2 ⟨.num zero one, atom_symbols _⟩

theorem two_le_length (h : NormalFactors factors) : 2 ≤ factors.length := by
  cases h with
  | symbols two => rwa [List.length_map]
  | scaled zero one symbols =>
    have hpos := List.length_pos_iff.2 symbols
    rw [List.length_cons, List.length_map]
    omega

/-- Symbols keep their places when factors are sorted. -/
theorem foldl_settle (names : List String) (sorted : List Expr) :
    (names.map sym).foldl (fun sorted item => settle item sorted) sorted =
      (names.map sym).reverse ++ sorted := by
  induction names generalizing sorted with
  | nil => rfl
  | cons name names ih =>
    have hsettle : settle (.sym name) sorted = .sym name :: sorted := by
      cases sorted with
      | nil => rfl
      | cons last before => cases last <;> rfl
    rw [List.map_cons, List.foldl_cons, hsettle, ih, List.reverse_cons, List.append_assoc,
      List.singleton_append]

theorem canonicalSort_eq (h : NormalFactors factors) : canonicalSort factors = factors := by
  unfold canonicalSort
  cases h with
  | @symbols names two => rw [foldl_settle, List.append_nil, List.reverse_reverse]
  | @scaled n names zero one symbols =>
    rw [List.foldl_cons]
    show (List.foldl _ [Expr.num (.int n)] _).reverse = _
    rw [foldl_settle, List.reverse_append, List.reverse_reverse]
    rfl

theorem filterMap_symbols (names : List String) : (names.map sym).filterMap number? = [] := by
  rw [List.filterMap_map]
  exact List.filterMap_eq_nil_iff.2 fun _ _ => rfl

theorem filter_symbols (names : List String) :
    (names.map sym).filter (!·.isNumber) = names.map sym := by
  refine List.filter_eq_self.2 fun f hf => ?_
  obtain ⟨name, -, rfl⟩ := List.mem_map.1 hf
  rfl

/-- There is one number at most, and it comes first. -/
theorem numbers_append (h : NormalFactors factors) :
    (factors.filterMap number?).length ≤ 1 ∧
      (factors.filterMap number?).map Expr.num ++ factors.filter (!·.isNumber) = factors := by
  cases h with
  | @symbols names two =>
    rw [filterMap_symbols, filter_symbols]
    exact ⟨Nat.zero_le 1, rfl⟩
  | @scaled n names zero one symbols =>
    have hnumbers : (num (.int n) :: names.map sym).filterMap number? = [.int n] := by
      rw [List.filterMap_cons_some (f := number?) (b := Number.int n) rfl, filterMap_symbols]
    rw [hnumbers, List.filter_cons_of_neg Bool.false_ne_true, filter_symbols]
    exact ⟨Nat.le_refl 1, rfl⟩

/-- A product in normal form has a coefficient other than zero and a variable part. -/
theorem exists_variablePart (h : NormalFactors factors) :
    (prod factors).coefficient.isZero = false ∧ ∃ part, (prod factors).variablePart? = some part := by
  have hpart {names : List String} (hne : names ≠ [])
      (hothers : factors.filter (!·.isNumber) = names.map sym) :
      ∃ part, (prod factors).variablePart? = some part := by
    rw [variablePart?, hothers]
    cases names with
    | nil => exact (hne rfl).elim
    | cons name names => exact ⟨_, rfl⟩
  cases h with
  | @symbols names two =>
    refine ⟨?_, hpart (fun hnil => ?_) (filter_symbols names)⟩
    · rw [coefficient, numericFactor, filterMap_symbols]
      rfl
    · rw [hnil] at two
      cases two
  | @scaled n names zero one symbols =>
    have hnumbers : (num (.int n) :: names.map sym).filterMap number? = [.int n] := by
      rw [List.filterMap_cons_some (f := number?) (b := Number.int n) rfl, filterMap_symbols]
    refine ⟨?_, hpart symbols ?_⟩
    · have hone : (1 : Number) * .int n = .int n := by
        have hrange : InRange ((1 : Int64).toInt * n.toInt) := by
          rw [show (1 : Int64).toInt = 1 from rfl, one_mul]
          exact inRange_toInt n
        refine (Number.int_mul (a := 1) hrange).trans ?_
        rw [show (1 : Int64).toInt = 1 from rfl, one_mul, Int64.ofInt_toInt]
      rw [coefficient, numericFactor, hnumbers, List.foldl_cons, List.foldl_nil, hone]
      exact beq_false_of_ne zero
    · rw [List.filter_cons_of_neg Bool.false_ne_true, filter_symbols]

end NormalFactors

/-! ### Normal terms -/

/-- A term in normal form has a coefficient other than zero and a variable part. -/
theorem NormalTerm.exists_variablePart {e : Expr} (h : e.NormalTerm) :
    e.coefficient.isZero = false ∧ ∃ part, e.variablePart? = some part := by
  cases h with
  | sym name => exact ⟨rfl, _, rfl⟩
  | prod h => exact h.exists_variablePart

theorem NormalTerms.summands {terms : List Expr} (h : NormalTerms terms) : Summands terms :=
  ⟨h.two, h.term, h.number⟩

namespace Summands

variable {terms : List Expr}

theorem any_isSum (h : Summands terms) : terms.any isSum = false := by
  refine List.any_eq_false.2 fun t ht => ?_
  rcases h.term t ht with ht | ⟨n, -, rfl⟩
  · cases ht <;> exact Bool.false_ne_true
  · exact Bool.false_ne_true

theorem normalTerm (h : Summands terms) : ∀ t ∈ terms.filter (!·.isNumber), t.NormalTerm := by
  intro t ht
  obtain ⟨ht, hnumber⟩ := List.mem_filter.1 ht
  rcases h.term t ht with hterm | ⟨n, -, rfl⟩
  · exact hterm
  · cases hnumber

theorem number_ne_zero (h : Summands terms) : ∀ n ∈ terms.filterMap number?, n.isZero = false := by
  intro n hn
  obtain ⟨t, ht, hnumber⟩ := List.mem_filterMap.1 hn
  rcases h.term t ht with hterm | ⟨m, hm, rfl⟩
  · cases hterm <;> cases hnumber
  · cases hnumber
    exact beq_false_of_ne hm

theorem length_split (terms : List Expr) :
    (terms.filterMap number?).length + (terms.filter (!·.isNumber)).length = terms.length := by
  rw [List.length_filterMap_eq_countP, List.countP_eq_length_filter]
  exact (List.length_eq_length_filter_add isNumber).symm

/-- The numbers of a sum are as many when they are added and zero is left out. -/
theorem length_total (h : Summands terms) :
    ((terms.filterMap number?).head?.filter (!·.isZero)).toList.length =
        (terms.filterMap number?).length ∧
      (terms.filterMap number?).head?.toList.length = (terms.filterMap number?).length := by
  have hone := h.number
  have hzero := h.number_ne_zero
  match hnumbers : terms.filterMap number? with
  | [] => exact ⟨rfl, rfl⟩
  | [n] =>
    rw [hnumbers] at hzero
    rw [List.head?_cons, Option.filter_some, hzero n List.mem_cons_self]
    exact ⟨rfl, rfl⟩
  | _ :: _ :: _ =>
    rw [hnumbers] at hone
    simp at hone

/-- There is a term that is not a number. -/
theorem isEmpty_others (h : Summands terms) : (terms.filter (!·.isNumber)).isEmpty = false := by
  have hlength := length_split terms
  have htwo := h.two
  have hone := h.number
  rw [Bool.eq_false_iff]
  intro hempty
  rw [List.isEmpty_iff.1 hempty, List.length_nil] at hlength
  omega

end Summands

end Expr

namespace Simplify

open Workings.Expr (NormalTerm)

/-- A coefficient goes into a group of its own if no group has its variable part. -/
theorem addToGroup_apart {coefficient : Number} {part : Expr} {groups : List (Number × Expr)}
    (h : ∀ group ∈ groups, (group.2 == part) = false) :
    addToGroup coefficient part groups = groups ++ [(coefficient, part)] := by
  induction groups with
  | nil => rfl
  | cons group groups ih =>
    obtain ⟨total, existing⟩ := group
    rw [addToGroup, if_neg (Bool.eq_false_iff.1 (h _ List.mem_cons_self)),
      ih fun group hgroup => h group (.tail _ hgroup), List.cons_append]

/-- Terms with different variable parts are groups of their own. -/
theorem foldl_groups {terms : List Expr} (hpart : ∀ t ∈ terms, ∃ part, t.variablePart? = some part)
    (groups : List (Number × Expr))
    (h : (groups.map Prod.snd ++ terms.filterMap Expr.variablePart?).Pairwise
      fun a b => (a == b) = false) :
    terms.foldl (fun groups term =>
      match term.variablePart? with
      | none => groups ++ [(term.coefficient, 1)]
      | some part => addToGroup term.coefficient part groups) groups =
        groups ++ terms.map fun t => (t.coefficient, t.variablePart?.getD 1) := by
  induction terms generalizing groups with
  | nil => rw [List.foldl_nil, List.map_nil, List.append_nil]
  | cons t terms ih =>
    obtain ⟨part, ht⟩ := hpart t List.mem_cons_self
    rw [List.filterMap_cons_some ht] at h
    have happart : addToGroup t.coefficient part groups = groups ++ [(t.coefficient, part)] := by
      refine addToGroup_apart fun group hgroup => ?_
      exact (List.pairwise_append.1 h).2.2 _ (List.mem_map_of_mem hgroup) _ List.mem_cons_self
    rw [List.foldl_cons, ht]
    dsimp only
    rw [happart, ih fun t ht => hpart t (.tail _ ht)]
    · rw [List.map_cons, ht, List.append_assoc, Option.getD_some, List.singleton_append]
    · rw [List.map_append, List.append_assoc]
      exact h

/-- Terms that do not cancel or go together are as many as before. -/
theorem length_combineLikeTerms {terms : List Expr} (hterm : ∀ t ∈ terms, t.NormalTerm)
    (h : (terms.filterMap Expr.variablePart?).Pairwise fun a b => (a == b) = false) :
    (combineLikeTerms terms).length = terms.length := by
  have hgroups : groupTerms terms = terms.map fun t => (t.coefficient, t.variablePart?.getD 1) :=
    foldl_groups (fun t ht => (hterm t ht).exists_variablePart.2) [] h
  have hfilter : (groupTerms terms).filter (fun group => !group.1.isZero) = groupTerms terms := by
    rw [hgroups]
    refine List.filter_eq_self.2 fun group hgroup => ?_
    obtain ⟨t, ht, rfl⟩ := List.mem_map.1 hgroup
    rw [(hterm t ht).exists_variablePart.1, Bool.not_false]
  rw [combineLikeTerms, List.length_map, hfilter, hgroups, List.length_map]

end Simplify

/-! ### Work that leaves everything as it is -/

/-- If nothing is done while a block is open, the sheet is as it was before. -/
theorem Work.exec_withBlock_self {α : Type} {trees : List Expr} {work : Nat → Work α} {a : α} {s : Sheet}
    (h : exec (work s.blocks.length) { s with blocks := s.blocks ++ [trees] } =
      (.ok a, { s with blocks := s.blocks ++ [trees] })) :
    exec (withBlock trees work) s = (.ok a, s) := by
  rw [exec_withBlock, h]
  simp

/-- A sheet on which symbols have no values and integers are taken for themselves. -/
structure Sheet.Quiet (s : Sheet) : Prop where
  value : ∀ name, s.bindings.value? name = none
  clamp : ∀ n : Int64, s.options.clamp (.int n) = .int n

theorem Sheet.Quiet.opened {s : Sheet} (hs : s.Quiet) (trees : List Expr) :
    Sheet.Quiet { s with blocks := s.blocks ++ [trees] } :=
  ⟨hs.value, hs.clamp⟩

/-- An expression that is simplified to itself, with nothing done to the sheet. -/
def Keeps (simplify : Simplifier) (e : Expr) : Prop :=
  ∀ s : Sheet, s.Quiet → Work.exec (simplify e) s = (.ok e, s)

namespace Simplify

open Workings.Expr (NormalFactors NormalTerm NormalTerms Summands Normal)

variable {simplify : Simplifier} {s : Sheet}

/-- A number that is taken for itself stays. -/
theorem exec_literal {n : Number} (h : s.options.clamp n = n) :
    Work.exec (literal n) s = (.ok (.num n), s) := by
  rw [literal, Work.options, bind_assoc, Work.exec_get_bind, pure_bind]
  dsimp only
  rw [h, show (n == n) = true from Expr.beq_refl (.num n)]
  rfl

theorem exec_symbol (hs : s.Quiet) (name : String) :
    Work.exec (symbol name) s = (.ok (.sym name), s) := by
  rw [symbol, Work.exec_get_bind, hs.value]
  rfl

theorem exec_become_self (e : Expr) : Work.exec (become e e) s = (.ok (), s) := by
  rw [become, Expr.beq_refl]
  rfl

/-- The trees of a block that are simplified to themselves stay. -/
theorem exec_blockFrom {trees : List Expr} (h : ∀ e ∈ trees, Work.exec (simplify e) s = (.ok e, s))
    {id : Nat} (hblock : s.block id = trees) (index count : Nat) :
    Work.exec (blockFrom simplify id index count) s = (.ok ((trees.drop index).take count), s) := by
  induction count generalizing index with
  | zero => rfl
  | succ count ih =>
    rw [blockFrom, Work.exec_get_bind, Sheet.blockItem?, hblock]
    cases htree : trees[index]? with
    | none =>
      rw [List.drop_eq_nil_of_le (List.getElem?_eq_none_iff.1 htree), List.take_nil]
      refine (ih (index + 1)).trans ?_
      rw [List.drop_eq_nil_of_le (by have := List.getElem?_eq_none_iff.1 htree; omega), List.take_nil]
    | some tree =>
      obtain ⟨hindex, rfl⟩ := List.getElem?_eq_some_iff.1 htree
      rw [List.drop_eq_getElem_cons hindex, List.take_succ_cons]
      exact (Work.exec_bind_ok (h _ (List.getElem_mem hindex))).trans
        (Work.exec_bind_ok (ih (index + 1)))

/-- Siblings that are simplified to themselves stay. -/
theorem exec_siblings {trees : List Expr}
    (h : ∀ e ∈ trees, Work.exec (simplify e) { s with blocks := s.blocks ++ [trees] } =
      (.ok e, { s with blocks := s.blocks ++ [trees] })) :
    Work.exec (siblings simplify trees) s = (.ok trees, s) := by
  have hblock := block_append s trees
  refine Work.exec_withBlock_self ?_
  rw [block, Work.exec_get_bind, hblock]
  refine (exec_blockFrom h hblock 0 trees.length).trans ?_
  rw [List.drop_zero, List.take_length]

/-- All that is done to a product of atoms that is in normal form once it is sorted is to sort it. -/
theorem exec_product_atoms {parts sorted : List Expr} (h : ∀ f ∈ parts, f.Atom)
    (htwo : 2 ≤ parts.length) (hsort : Expr.canonicalSort parts = sorted)
    (hsorted : NormalFactors sorted) (hparts : ∀ f ∈ parts, Keeps simplify f) (hs : s.Quiet) :
    Work.exec (product simplify parts) s =
      Work.exec (become (.prod parts) (.prod sorted) >>= fun _ => pure (.prod sorted)) s := by
  obtain ⟨hnumbers, hsplit⟩ := hsorted.numbers_append
  have hfactors : Work.exec (factors simplify (.prod parts) parts) s =
      Work.exec (become (.prod parts) (.prod sorted) >>= fun _ => pure (.prod sorted)) s := by
    rw [factors, Expr.firstSum?_of_atoms h]
    dsimp only
    rw [hsort, if_pos hnumbers, hsplit, Expr.buildProd_of_atoms hsorted.atom hsorted.two_le_length]
  unfold product
  rw [Expr.any_zero_of_atoms h]
  refine (Work.exec_bind_ok (exec_siblings fun f hf => hparts f hf _ (hs.opened parts))).trans ?_
  dsimp only
  rw [Expr.any_zero_of_atoms h, Expr.filter_not_one_of_atoms h]
  rcases parts with _ | ⟨a, _ | ⟨b, rest⟩⟩
  · cases htwo
  · simp at htwo
  · exact (Work.exec_bind_ok (exec_become_self _)).trans hfactors

/-- A product in normal form is left as it is if its factors are. -/
theorem exec_product {parts : List Expr} (h : NormalFactors parts)
    (hparts : ∀ f ∈ parts, Keeps simplify f) (hs : s.Quiet) :
    Work.exec (product simplify parts) s = (.ok (.prod parts), s) :=
  (exec_product_atoms h.atom h.two_le_length h.canonicalSort_eq h hparts hs).trans
    (Work.exec_bind_ok (exec_become_self _))

theorem exec_addNumbers {numbers : List Number} (h : numbers.length ≤ 1) (current : Expr) :
    Work.exec (addNumbers current numbers) s = (.ok (numbers.head?, current), s) := by
  match numbers with
  | [] | [_] => rfl

/-- What is left of the terms of a sum when like terms are combined. -/
def collected (terms : List Expr) : List Expr :=
  ((terms.filterMap Expr.number?).head?.filter (!·.isZero)).toList.map Expr.num ++
    combineLikeTerms (terms.filter (!·.isNumber))

theorem length_collected {terms : List Expr} (h : Summands terms) : (collected terms).length =
    (terms.filterMap Expr.number?).length + (combineLikeTerms (terms.filter (!·.isNumber))).length := by
  rw [collected, List.length_append, List.length_map, h.length_total.1]

/-- All that is done to a sum whose terms are in normal form is to combine like terms. -/
theorem exec_sum_summands {terms : List Expr} (h : Summands terms)
    (hterms : ∀ t ∈ terms, Keeps simplify t) (hs : s.Quiet) :
    Work.exec (sum simplify terms) s = Work.exec
      (if (collected terms).length ≠ terms.length ∨ (collected terms).length = 1 then do
        Work.change (.sum terms) (.sumOf (collected terms))
        return .sumOf (collected terms)
      else return .sum terms) s := by
  have hlength := Summands.length_split terms
  obtain ⟨-, htotal⟩ := h.length_total
  unfold sum
  refine (Work.exec_bind_ok (exec_siblings fun t ht => hterms t ht _ (hs.opened terms))).trans ?_
  simp only [h.any_isSum, Bool.false_eq_true, if_false]
  refine (Work.exec_bind_ok (exec_addNumbers h.number (.sum terms))).trans ?_
  dsimp only
  rw [h.isEmpty_others, if_neg Bool.false_ne_true, htotal, hlength]
  rfl

/-- A sum in normal form is left as it is if its terms are. -/
theorem exec_sum {terms : List Expr} (h : NormalTerms terms)
    (hterms : ∀ t ∈ terms, Keeps simplify t) (hs : s.Quiet) :
    Work.exec (sum simplify terms) s = (.ok (.sum terms), s) := by
  have hlike := length_combineLikeTerms h.summands.normalTerm
    (h.apart.sublist (List.filter_sublist.filterMap _))
  have hlength := Summands.length_split terms
  have hcollected := length_collected h.summands
  have htwo := h.two
  rw [exec_sum_summands h.summands hterms hs, if_neg (by omega)]
  rfl

end Simplify

theorem keeps_num (n : Int64) (depth : Nat) : Keeps (Expr.simplifyAt (depth + 1)) (.num (.int n)) :=
  fun _ hs => Simplify.exec_literal (hs.clamp n)

theorem keeps_atom {e : Expr} (h : e.Atom) (depth : Nat) : Keeps (Expr.simplifyAt (depth + 1)) e := by
  cases h with
  | sym name => exact fun _ hs => Simplify.exec_symbol hs name
  | num _ _ => exact keeps_num _ depth

theorem keeps_normalTerm {e : Expr} (h : e.NormalTerm) (depth : Nat) :
    Keeps (Expr.simplifyAt (depth + 2)) e := by
  cases h with
  | sym name => exact keeps_atom (.sym name) (depth + 1)
  | prod h => exact fun s hs => Simplify.exec_product h (fun f hf => keeps_atom (h.atom f hf) depth) hs

/-- An expression in normal form is simplified to itself. -/
theorem keeps_normal {e : Expr} (h : e.Normal) (depth : Nat) :
    Keeps (Expr.simplifyAt (depth + 3)) e := by
  cases h with
  | num n => exact keeps_num n (depth + 2)
  | term h => exact keeps_normalTerm h (depth + 1)
  | sum h =>
    refine fun s hs => Simplify.exec_sum h (fun t ht => ?_) hs
    rcases h.term t ht with ht | ⟨n, -, rfl⟩
    · exact keeps_normalTerm ht depth
    · exact keeps_num n (depth + 1)

/-! ### Solutions of expressions in normal form -/

theorem Expr.hasCalculus_of_atoms {factors : List Expr} (h : ∀ f ∈ factors, f.Atom) :
    (Expr.prod factors).hasCalculus = false :=
  anyCalculus_eq_false_iff.2 fun f hf => by cases h f hf <;> rfl

theorem Expr.NormalTerm.hasCalculus_eq_false {e : Expr} (h : e.NormalTerm) :
    e.hasCalculus = false := by
  cases h with
  | sym name => rfl
  | prod h => exact hasCalculus_of_atoms h.atom

theorem Expr.Normal.hasCalculus_eq_false {e : Expr} (h : e.Normal) : e.hasCalculus = false := by
  cases h with
  | num n => rfl
  | term h => exact h.hasCalculus_eq_false
  | sum h =>
    refine anyCalculus_eq_false_iff.2 fun t ht => ?_
    rcases h.term t ht with ht | ⟨n, -, rfl⟩
    · exact ht.hasCalculus_eq_false
    · rfl

theorem Expr.Normal.normalize_number {e : Expr} (h : e.Normal) (n : Number) (hn : e = .num n) :
    n.normalize = n := by
  subst hn
  cases h with
  | num n => rfl
  | term h => cases h

theorem Sheet.quiet_new {bindings : Bindings} {options : Options} (hvalues : bindings.values = [])
    (hclamp : ∀ n : Int64, options.clamp (.int n) = .int n) (e : Expr) (strict : Bool) :
    (Sheet.new e bindings options strict).Quiet where
  value name := by
    show bindings.values.lookup name = none
    rw [hvalues]
    rfl
  clamp := hclamp

theorem clamp_default (n : Int64) : ({} : Options).clamp (.int n) = .int n :=
  Simplify.clamp_int (by decide +kernel) rfl n

section

variable {e result : Expr} {bindings : Bindings} {options : Options} {strict : Bool} {t : Sheet}

/-- If no values are put into an expression, it is worked out by simplifying it. -/
theorem Work.exec_solveWith {simplify : Simplifier} (hself : bindings.replaceSymbols e = e)
    (h : exec (simplify e) (Sheet.new e bindings options strict) = (.ok result, t))
    (hnumber : ∀ n, result = .num n → n.normalize = n) (hcalculus : result.hasCalculus = false) :
    exec (solveWith simplify) (Sheet.new e bindings options strict) = (.ok result, t) := by
  have hsettle : exec (settle simplify e) (Sheet.new e bindings options strict) = (.ok result, t) := by
    unfold settle
    refine (exec_bind_ok (a := result) (t := t)
      (exec_tryCatch_ok ((exec_bind_ok h).trans ?_))).trans ?_
    · cases result with
      | num n => exact congrArg (fun m => (Except.ok (Expr.num m), t)) (hnumber n rfl)
      | _ => rfl
    · rw [hcalculus]
      rfl
  rw [solveWith_eq, exec_bind_ok (exec_substituteValues_self options strict hself), hsettle]

theorem solve_of_simplify (hself : bindings.replaceSymbols e = e)
    (h : Work.exec (Expr.simplify e) (Sheet.new e bindings options strict) = (.ok result, t))
    (hnumber : ∀ n, result = .num n → n.normalize = n) (hcalculus : result.hasCalculus = false) :
    solve e bindings options strict = .ok (result, t) := by
  rw [solve, Sheet.solve_eq, Work.exec_solveWith hself h hnumber hcalculus]

/-- A solution ends at a change of a part that does not occur. -/
theorem solve_of_absent {part tree : Expr} (hself : bindings.replaceSymbols e = e)
    (h : Work.exec (Expr.simplify e) (Sheet.new e bindings options strict) =
      (.error (.absent part tree), t)) :
    solve e bindings options strict = .error (.absent part tree) := by
  have hsettle : Work.exec (Work.settle Expr.simplify e) (Sheet.new e bindings options strict) =
      (.error (.absent part tree), t) := by
    unfold Work.settle
    exact Work.exec_bind_error ((Work.exec_tryCatch_error (Work.exec_bind_error h)).trans rfl)
  rw [solve, Sheet.solve_eq, Work.solveWith_eq,
    Work.exec_bind_ok (exec_substituteValues_self options strict hself), hsettle]

end

section

variable {bindings : Bindings} {options : Options} (hvalues : bindings.values = [])
  (hclamp : ∀ n : Int64, options.clamp (.int n) = .int n)

include hvalues

theorem Bindings.replaceSymbols_of_values (e : Expr) : bindings.replaceSymbols e = e := by
  rw [replaceSymbols, hvalues, Expr.withValues_nil]

include hclamp

/-- Without values, and under options that take integers for themselves, an expression in normal form is
its own solution. -/
theorem solve_of_normal {r : Expr} (h : r.Normal) (strict : Bool) :
    solve r bindings options strict = .ok (r, Sheet.new r bindings options strict) := by
  have hkeeps : Work.exec (Expr.simplify r) (Sheet.new r bindings options strict) =
      (.ok r, Sheet.new r bindings options strict) :=
    keeps_normal h 65533 _ (Sheet.quiet_new hvalues hclamp r strict)
  exact solve_of_simplify (Bindings.replaceSymbols_of_values hvalues r) hkeeps h.normalize_number
    h.hasCalculus_eq_false

end

/-- An expression in normal form is its own solution, and nothing is written down on the way: whatever
solution has ended in it, to solve it once more changes nothing. -/
theorem solve_normal {r : Expr} (h : r.Normal) (strict : Bool) :
    solve r {} {} strict = .ok (r, Sheet.new r {} {} strict) :=
  solve_of_normal rfl clamp_default h strict

/-- The sum `1 + 2 * x` is in normal form, and so it is its own solution. -/
theorem solve_normal_sum :
    (Expr.sum [1, .prod [2, .sym "x"]]).Normal ∧
      solve (.sum [1, .prod [2, .sym "x"]]) {} {} true =
        .ok (.sum [1, .prod [2, .sym "x"]], Sheet.new (.sum [1, .prod [2, .sym "x"]]) {} {} true) := by
  have hterm : (Expr.prod [2, .sym "x"]).NormalTerm :=
    .prod (@Expr.NormalFactors.scaled 2 ["x"] (by decide) (by decide) (by decide))
  have hnormal : (Expr.sum [1, .prod [2, .sym "x"]]).Normal := by
    refine .sum ⟨by decide, fun t ht => ?_, by decide, by decide⟩
    rcases List.mem_pair.1 ht with rfl | rfl
    · exact .inr ⟨1, by decide, rfl⟩
    · exact .inl hterm
  exact ⟨hnormal, solve_normal hnormal true⟩

/-! ### Numbers that do not come first -/

/-- The factors of a product of symbols and one number, which stands somewhere among them. -/
def numberAmong (before : List String) (n : Int64) (after : List String) : List Expr :=
  before.map Expr.sym ++ .num (.int n) :: after.map Expr.sym

theorem canonicalSort_numberAmong (before : List String) (n : Int64) (after : List String) :
    Expr.canonicalSort (numberAmong before n after) = numberAmong [] n (before ++ after) := by
  have hsettle (names : List String) :
      Expr.settle (.num (.int n)) (names.map Expr.sym) = names.map Expr.sym ++ [.num (.int n)] := by
    induction names with
    | nil => rfl
    | cons name names ih =>
      show Expr.sym name :: Expr.settle _ (names.map Expr.sym) = _
      rw [ih]
      rfl
  unfold Expr.canonicalSort numberAmong
  rw [List.foldl_append, Expr.NormalFactors.foldl_settle, List.append_nil, List.foldl_cons,
    ← List.map_reverse, hsettle, Expr.NormalFactors.foldl_settle]
  simp

section

variable {before after : List String} {n : Int64} (hzero : n ≠ 0) (hone : n ≠ 1) (hbefore : before ≠ [])

include hzero hone hbefore

theorem normalFactors_numberAmong : Expr.NormalFactors (numberAmong [] n (before ++ after)) :=
  .scaled hzero hone fun hnil => hbefore (List.append_eq_nil_iff.1 hnil).1

variable {bindings : Bindings} {options : Options} (hvalues : bindings.values = [])
  (hclamp : ∀ n : Int64, options.clamp (.int n) = .int n)

include hvalues hclamp

variable (after) in
/-- If the number of a product of symbols does not come first, it is moved there. -/
theorem exec_numberAmong (strict : Bool) (depth : Nat) :
    ∃ s, Work.exec (Expr.simplifyAt (depth + 2) (.prod (numberAmong before n after)))
        (Sheet.new (.prod (numberAmong before n after)) bindings options strict) =
        (.ok (.prod (numberAmong [] n (before ++ after))), s) ∧
      s.tree = .prod (numberAmong [] n (before ++ after)) ∧
      s.steps = [.opening (.prod (numberAmong before n after)),
        ⟨.prod (numberAmong before n after), .prod (numberAmong [] n (before ++ after)),
          .prod (numberAmong before n after), .prod (numberAmong [] n (before ++ after)), none, false⟩] := by
  have hatoms : ∀ f ∈ numberAmong before n after, f.Atom :=
    List.forall_mem_append.2 ⟨Expr.atom_symbols before,
      List.forall_mem_cons.2 ⟨.num hzero hone, Expr.atom_symbols after⟩⟩
  have htwo : 2 ≤ (numberAmong before n after).length := by
    have hpos := List.length_pos_iff.2 hbefore
    simp only [numberAmong, List.length_append, List.length_map, List.length_cons]
    omega
  have hne : (Expr.prod (numberAmong before n after) ==
      .prod (numberAmong [] n (before ++ after))) = false := by
    cases before with
    | nil => exact (hbefore rfl).elim
    | cons name before => rfl
  have hne' : (Expr.prod (numberAmong [] n (before ++ after)) ==
      .prod (numberAmong before n after)) = false :=
    Bool.eq_false_iff.2 fun heq => Bool.eq_false_iff.1 hne (Expr.beq_symm heq)
  have hchange := Work.exec_change_whole
    (s := Sheet.new (.prod (numberAmong before n after)) bindings options strict) hne'
  have hkeeps : ∀ f ∈ numberAmong before n after, Keeps (Expr.simplifyAt (depth + 1)) f :=
    fun f hf => keeps_atom (hatoms f hf) depth
  have hsimplify := (Simplify.exec_product_atoms hatoms htwo
    (canonicalSort_numberAmong before n after) (normalFactors_numberAmong hzero hone hbefore) hkeeps
    (Sheet.quiet_new hvalues hclamp _ strict)).trans (Work.exec_bind_ok (by
      rw [Simplify.become, hne]
      exact hchange))
  exact ⟨_, hsimplify, rfl, rfl⟩

/-- A product of symbols and a number that does not come first is not its own solution. -/
theorem solve_numberAmong (strict : Bool) :
    ∃ s, solve (.prod (numberAmong before n after)) bindings options strict =
        .ok (.prod (numberAmong [] n (before ++ after)), s) ∧
      s.steps = [.opening (.prod (numberAmong before n after)),
        ⟨.prod (numberAmong before n after), .prod (numberAmong [] n (before ++ after)),
          .prod (numberAmong before n after), .prod (numberAmong [] n (before ++ after)), none, false⟩] := by
  obtain ⟨s, hexec, -, hsteps⟩ :=
    exec_numberAmong after hzero hone hbefore hvalues hclamp strict 65534
  have hatoms : ∀ f ∈ numberAmong [] n (before ++ after), f.Atom :=
    (normalFactors_numberAmong hzero hone hbefore).atom
  exact ⟨s, solve_of_simplify (Bindings.replaceSymbols_of_values hvalues _) hexec (fun n hn => nomatch hn)
    (Expr.hasCalculus_of_atoms hatoms), hsteps⟩

end

/-- The product `x * (2 * y)` is worked out to `x * 2 * y`, which is worked out to something else. -/
theorem solve_opened_product :
    ∃ r s r' t, solve (.prod [.sym "x", .prod [2, .sym "y"]]) {} {} true = .ok (r, s) ∧
      s.status = .exact ∧ solve r {} {} true = .ok (r', t) ∧ (r' == r) = false := by
  have hsolves : Solves (.prod [.sym "x", .prod [2, .sym "y"]]) {} {} true (fun r s =>
      decide (s.status = .exact) && Solves r {} {} true fun r' _ => !(r' == r)) = true := by
    decide +kernel
  obtain ⟨r, s, hsolve, h⟩ := exists_of_solves hsolves
  obtain ⟨hstatus, hagain⟩ := Bool.and_eq_true_iff.1 h
  obtain ⟨r', t, hsolve', hne⟩ := exists_of_solves hagain
  exact ⟨r, s, r', t, hsolve, of_decide_eq_true hstatus, hsolve', by simpa using hne⟩

end Workings
