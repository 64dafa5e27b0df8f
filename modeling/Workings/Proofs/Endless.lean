import Workings.Proofs.NormalForm

/-!
# Solutions that do not end

A symbol may be bound to a sum in which it occurs itself. If it stands in a product with a number, the
product is distributed over the sum, the first term of what comes of it is the product again, and so on:
there is no depth at which the solution would end (`exhausts_product`). Nothing else can happen to it on
a tolerant sheet.
-/

namespace Workings

open Work (exec)

/-- On every tolerant sheet with the given bindings and options the work ends because the depth does
not suffice. -/
def Exhausts (bindings : Bindings) (options : Options) (w : Work Expr) : Prop :=
  ∀ s : Sheet, s.strict = false → s.bindings = bindings → s.options = options →
    (exec w s).1 = .error .exhausted

namespace Work

variable {α β : Type} {s t : Sheet}

theorem exec_bind_exhausted {w : Work α} {f : α → Work β} (h : (exec w s).1 = .error .exhausted) :
    (exec (w >>= f) s).1 = .error .exhausted := by
  rcases hw : exec w s with ⟨result, t⟩
  rw [hw] at h
  obtain rfl : result = .error .exhausted := h
  rw [exec_bind_error hw]

theorem exec_tryCatch_exhausted {w : Work α} {handle : Fault → Work α}
    (h : (exec w s).1 = .error .exhausted) (hhandle : handle .exhausted = throw .exhausted) :
    (exec (tryCatch w handle) s).1 = .error .exhausted := by
  rcases hw : exec w s with ⟨result, t⟩
  rw [hw] at h
  obtain rfl : result = .error .exhausted := h
  rw [exec_tryCatch_error hw, hhandle]
  rfl

theorem exec_withBlock_exhausted {trees : List Expr} {work : Nat → Work α}
    (h : (exec (work s.blocks.length) { s with blocks := s.blocks ++ [trees] }).1 =
      .error .exhausted) : (exec (withBlock trees work) s).1 = .error .exhausted := by
  rw [exec_withBlock]
  exact h

/-- A change on a tolerant sheet is made or left out. -/
theorem exec_changeWith_tolerant (c : Change) (hs : s.strict = false) :
    ∃ t, exec (changeWith c) s = (.ok (), t) ∧ t.strict = false ∧ t.bindings = s.bindings ∧
      t.options = s.options := by
  rw [exec_changeWith, hs]
  split
  · exact ⟨_, rfl, hs, rfl, rfl⟩
  · exact ⟨_, rfl, hs, rfl, rfl⟩

end Work

namespace Simplify

variable {s : Sheet} {simplify : Simplifier}

/-- If the first of some siblings exhausts the depth, so do the siblings. -/
theorem exec_siblings_exhausted {first : Expr} {rest : List Expr}
    (h : (exec (simplify first) { s with blocks := s.blocks ++ [first :: rest] }).1 =
      .error .exhausted) : (exec (siblings simplify (first :: rest)) s).1 = .error .exhausted := by
  refine Work.exec_withBlock_exhausted ?_
  rw [block, Work.exec_get_bind, block_append, List.length_cons, blockFrom, Work.exec_get_bind,
    Sheet.blockItem?, block_append, List.getElem?_cons_zero]
  exact Work.exec_bind_exhausted h

end Simplify

section

variable {bindings : Bindings} {options : Options} {c : Number} {x : String} {terms : List Expr}
  (hx : bindings.value? x = some (.sum (.sym x :: terms))) (hclamp : options.clamp c = c)
  (hzero : (Expr.num c).isValue 0 = false) (hone : (Expr.num c).isValue 1 = false)

/-- If the first term of a sum exhausts the depth, so does the sum. -/
theorem exhausts_sum {depth : Nat} {first : Expr} (rest : List Expr)
    (h : Exhausts bindings options (Expr.simplifyAt depth first)) :
    Exhausts bindings options (Expr.simplifyAt (depth + 1) (.sum (first :: rest))) :=
  fun s hs hbindings hoptions => Work.exec_bind_exhausted
    (Simplify.exec_siblings_exhausted (h { s with blocks := _ } hs hbindings hoptions))

include hclamp in
/-- A number that is not clamped stays, and nothing is written down. -/
theorem exec_simplifyAt_num {s : Sheet} (hoptions : s.options = options) (depth : Nat) :
    exec (Expr.simplifyAt (depth + 1) (.num c)) s = (.ok (.num c), s) := by
  subst hoptions
  exact Simplify.exec_literal hclamp

include hx in
/-- A bound symbol is its value. -/
theorem exec_simplifyAt_sym {s : Sheet} (hs : s.strict = false) (hbindings : s.bindings = bindings)
    (depth : Nat) : ∃ t, exec (Expr.simplifyAt (depth + 1) (.sym x)) s =
      (.ok (.sum (.sym x :: terms)), t) ∧ t.strict = false ∧ t.bindings = s.bindings ∧
      t.options = s.options := by
  show ∃ t, exec (Simplify.symbol x) s = _ ∧ _
  rw [Simplify.symbol, Work.exec_get_bind, hbindings, hx]
  dsimp only
  rw [Work.changeIfPresent, bind_assoc, Work.exec_get_bind]
  split
  · obtain ⟨t, ht, hsame⟩ := Work.exec_changeWith_tolerant ⟨.sym x, _, none, false⟩ hs
    exact ⟨t, Work.exec_bind_ok ht, hbindings ▸ hsame⟩
  · exact ⟨s, rfl, hs, hbindings, rfl⟩

include hzero hone in
/-- The product of the number and a symbol is in normal form. -/
theorem buildProd_num_sym : Expr.buildProd [.num c, .sym x] = .prod [.num c, .sym x] := by
  have hflat : Expr.flatFactors [.num c, .sym x] = [.num c, .sym x] := by
    rw [Expr.flatFactors_cons (fun _ h => Expr.noConfusion h), hone]
    rfl
  rw [Expr.buildProd, hflat]
  simp only [List.any_cons, hzero]
  rfl

include hclamp hx in
/-- The factors are simplified to the number and the sum. -/
theorem exec_siblings_factors {s : Sheet} (hs : s.strict = false) (hbindings : s.bindings = bindings)
    (hoptions : s.options = options) (depth : Nat) :
    ∃ t, exec (Simplify.siblings (Expr.simplifyAt (depth + 1)) [.num c, .sym x]) s =
      (.ok [.num c, .sum (.sym x :: terms)], t) ∧ t.strict = false ∧ t.bindings = s.bindings ∧
      t.options = s.options := by
  let opened : Sheet := { s with blocks := s.blocks ++ [[.num c, .sym x]] }
  have hblock : opened.block s.blocks.length = [.num c, .sym x] := Simplify.block_append ..
  have hnum : exec (Expr.simplifyAt (depth + 1) (.num c)) opened = (.ok (.num c), opened) :=
    exec_simplifyAt_num (s := opened) hclamp hoptions depth
  obtain ⟨t, hsym, hsame⟩ := exec_simplifyAt_sym (s := opened) hx hs hbindings depth
  refine ⟨{ t with blocks := t.blocks.take s.blocks.length }, ?_, hsame⟩
  have hexec : exec (Simplify.block (Expr.simplifyAt (depth + 1)) s.blocks.length) opened =
      (.ok [.num c, .sum (.sym x :: terms)], t) := by
    rw [Simplify.block, Work.exec_get_bind, hblock]
    simp only [List.length_cons, List.length_nil, Simplify.blockFrom, Work.exec_get_bind,
      Sheet.blockItem?, hblock, List.getElem?_cons_zero]
    refine (Work.exec_bind_ok hnum).trans ?_
    simp only [bind_assoc, Work.exec_get_bind, hblock, List.getElem?_cons_succ,
      List.getElem?_cons_zero, pure_bind]
    exact (Work.exec_bind_ok hsym).trans rfl
  rw [Simplify.siblings, Work.exec_withBlock, hexec]

include hx hclamp hzero hone in
/-- A product of a number and a symbol that is bound to a sum in which it comes first itself exhausts
every depth. -/
theorem exhausts_product (depth : Nat) :
    Exhausts bindings options (Expr.simplifyAt depth (.prod [.num c, .sym x])) := by
  induction depth using Nat.strong_induction_on with
  | _ depth ih =>
    intro s hs hbindings hoptions
    match depth, ih with
    | 0, _ => rfl
    | 1, _ =>
      show (exec (Simplify.product _ _) s).1 = _
      rw [Simplify.product, List.any_cons, hzero]
      exact Work.exec_bind_exhausted (Simplify.exec_siblings_exhausted rfl)
    | depth + 2, ih =>
      have hdistributed := exhausts_sum
        (terms.map fun term => Expr.buildProd ([.num c] ++ [term])) (ih depth (by omega))
      rw [← buildProd_num_sym hzero hone] at hdistributed
      show (exec (Simplify.product _ _) s).1 = _
      obtain ⟨t, ht, hstrict, hbindings', hoptions'⟩ :=
        exec_siblings_factors hx hclamp hs hbindings hoptions depth
      rw [Simplify.product, List.any_cons, hzero]
      refine (congrArg Prod.fst (Work.exec_bind_ok ht)).trans ?_
      dsimp only
      rw [List.any_cons, hzero]
      have hkept : [Expr.num c, .sum (.sym x :: terms)].filter (!·.isValue 1) =
          [.num c, .sum (.sym x :: terms)] := by
        rw [List.filter_cons_of_pos (by rw [hone]; rfl)]
        rfl
      rw [hkept]
      refine (congrArg Prod.fst (Work.exec_bind_ok (Simplify.exec_become_self _))).trans ?_
      obtain ⟨u, hu, hstrict, hbindings'', hoptions''⟩ := Work.exec_changeWith_tolerant
        ⟨.prod [.num c, .sum (.sym x :: terms)], .sum ((Expr.sym x :: terms).map fun term =>
          Expr.buildProd ([.num c] ++ [term])), none, false⟩ hstrict
      refine (congrArg Prod.fst (Work.exec_bind_ok hu)).trans ?_
      exact hdistributed u hstrict (hbindings''.trans (hbindings'.trans hbindings))
        (hoptions''.trans (hoptions'.trans hoptions))

end

theorem exec_substituteValues_tolerant (e : Expr) (bindings : Bindings) (options : Options) :
    ∃ t, exec Work.substituteValues (Sheet.new e bindings options false) =
      (.ok (bindings.replaceSymbols e), t) ∧ t.strict = false ∧ t.bindings = bindings ∧
      t.options = options := by
  cases hne : (bindings.replaceSymbols e == e) with
  | false =>
    obtain ⟨text, missing, -, hfirst⟩ := exec_substituteValues options false hne
    exact ⟨_, hfirst, rfl, rfl, rfl⟩
  | true =>
    refine ⟨Sheet.new e bindings options false, ?_, rfl, rfl, rfl⟩
    rw [Work.substituteValues_eq, Work.exec_get_bind]
    show exec (if (!(bindings.replaceSymbols e == e)) = true then _ else _) _ = _
    rw [hne]
    rfl

/-- If what comes of an expression when the values are put in exhausts a depth, so does its solution. -/
theorem Exhausts.solveWith {e : Expr} {bindings : Bindings} {options : Options}
    {simplify : Simplifier} (h : Exhausts bindings options (simplify (bindings.replaceSymbols e))) :
    (exec (Work.solveWith simplify) (Sheet.new e bindings options false)).1 = .error .exhausted := by
  obtain ⟨t, ht, hstrict, hbindings, hoptions⟩ := exec_substituteValues_tolerant e bindings options
  rw [Work.solveWith_eq, Work.exec_bind_ok ht, Work.settle]
  exact Work.exec_bind_exhausted (Work.exec_tryCatch_exhausted
    (Work.exec_bind_exhausted (h t hstrict hbindings hoptions)) rfl)

/-- Whatever the depth, a tolerant solution does not end if putting in the values leaves a product of a
number and a symbol that is bound to a sum in which it comes first itself. -/
theorem solveWith_endless {e : Expr} {bindings : Bindings} {options : Options} {c : Number}
    {x : String} {terms : List Expr} (hput : bindings.replaceSymbols e = .prod [.num c, .sym x])
    (hx : bindings.value? x = some (.sum (.sym x :: terms))) (hclamp : options.clamp c = c)
    (hzero : (Expr.num c).isValue 0 = false) (hone : (Expr.num c).isValue 1 = false) (depth : Nat) :
    (exec (Work.solveWith (Expr.simplifyAt depth)) (Sheet.new e bindings options false)).1 =
      .error .exhausted := by
  have hproduct := exhausts_product hx hclamp hzero hone depth
  rw [← hput] at hproduct
  exact hproduct.solveWith

/-- With `2 * x` for `y` and a sum of `x` and other symbols for `x`, there is no depth at which the solution
of `y` ends. -/
theorem solveWith_endless_double :
    ¬ ∃ depth : Nat, (exec (Work.solveWith (Expr.simplifyAt depth)) (Sheet.new (.sym "y")
      { values := [("y", .prod [2, .sym "x"]),
          ("x", .sum [.sym "x", .sym "a", .sym "b", .sym "c", .sym "d", .sym "f", .sym "g", .sym "h"])] }
      {} false)).1 ≠ .error .exhausted := by
  rintro ⟨depth, hends⟩
  refine hends (solveWith_endless (x := "x") (c := 2) rfl rfl ?_ rfl rfl depth)
  exact Simplify.clamp_int (show ({} : Options).minValue ≤ 1 by decide +kernel) rfl 2

end Workings
