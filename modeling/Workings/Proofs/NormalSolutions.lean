import Workings.Proofs.LikeTerms
import Workings.Proofs.SolvedSums

/-!
# Solutions in normal form

A product of symbols and one number is solved by moving the number to the front, a sum of terms in normal
form by combining those that are alike, and a sum of integers by adding them. In each of these cases the
solution is in normal form and is what the tree has become, every change finds its part, and to solve the
solution once more changes nothing (`solve_inReach`). The work ends three steps down, whatever the policies
and the limits of the options are, as long as they leave integers alone (`solveWith_inReach`).
-/

namespace Workings

open Workings.Expr (Everywhere Unrounded)

namespace Expr

/-! ### Variable parts of terms in normal form -/

/-- A symbol, or a product of symbols. -/
def symbolic (names : List String) : Expr :=
  unwrap .prod (names.map .sym)

variable {part t : Expr} {c : Int64} {names : List String}

theorem Atom.unrounded (h : t.Atom) : t.Everywhere Unrounded := by
  cases h with
  | sym name => exact .intro trivial fun _ hpart => nomatch hpart
  | num _ _ => exact .num trivial

theorem NormalTerm.unrounded (h : t.NormalTerm) : t.Everywhere Unrounded := by
  cases h with
  | sym name => exact (Atom.sym name).unrounded
  | prod h => exact .prod trivial fun f hf => (h.atom f hf).unrounded

theorem variablePart?_prod {factors : List Expr} (hne : names ≠ [])
    (hothers : factors.filter (!·.isNumber) = names.map .sym) :
    (prod factors).variablePart? = some (symbolic names) := by
  rw [variablePart?, hothers]
  cases names with
  | nil => exact absurd rfl hne
  | cons name names => rfl

/-- The variable part of a term in normal form is a symbol or a product of symbols. -/
theorem NormalTerm.exists_symbolic (h : t.NormalTerm) :
    ∃ names : List String, names ≠ [] ∧ t.variablePart? = some (symbolic names) := by
  cases h with
  | sym name => exact ⟨[name], List.cons_ne_nil _ _, rfl⟩
  | prod h =>
    cases h with
    | @symbols names two =>
      have hne : names ≠ [] := List.ne_nil_of_length_pos (Nat.zero_lt_of_lt two)
      exact ⟨names, hne, variablePart?_prod hne (NormalFactors.filter_symbols names)⟩
    | @scaled n names zero one symbols =>
      refine ⟨names, symbols, variablePart?_prod symbols ?_⟩
      rw [List.filter_cons_of_neg Bool.false_ne_true, NormalFactors.filter_symbols]

theorem flatFactors_symbolic (hne : names ≠ []) : flatFactors [symbolic names] = names.map .sym := by
  match names with
  | [name] => rfl
  | first :: second :: rest => exact List.append_nil _

theorem normalTerm_symbolic (hne : names ≠ []) :
    (symbolic names).NormalTerm ∧ (symbolic names).variablePart? = some (symbolic names) := by
  match names with
  | [name] => exact ⟨.sym name, rfl⟩
  | first :: second :: rest =>
    have two : 2 ≤ (first :: second :: rest).length := by simp
    have hothers := NormalFactors.filter_symbols (first :: second :: rest)
    exact ⟨.prod (.symbols two), variablePart?_prod hne hothers⟩

/-- Symbols behind a number other than zero are a term in normal form, and its variable part. -/
theorem buildProd_symbolic (hne : names ≠ []) (hc : c ≠ 0) :
    (buildProd [.num (.int c), symbolic names]).NormalTerm ∧
      (buildProd [.num (.int c), symbolic names]).variablePart? = some (symbolic names) := by
  by_cases hone : c = 1
  · subst hone
    have hbuilt : buildProd [.num (.int 1), symbolic names] = symbolic names := by
      have hflat : flatFactors [.num (.int 1), symbolic names] = names.map .sym :=
        flatFactors_symbolic hne
      unfold buildProd
      dsimp only
      rw [hflat, any_zero_of_atoms (atom_symbols names)]
      rcases names with _ | ⟨name, _ | ⟨second, rest⟩⟩
      · exact absurd rfl hne
      · rfl
      · rfl
    rw [hbuilt]
    exact normalTerm_symbolic hne
  · have hatoms : ∀ f ∈ Expr.num (.int c) :: names.map .sym, f.Atom :=
      List.forall_mem_cons.2 ⟨.num hc hone, atom_symbols names⟩
    have hnormal : NormalFactors (.num (.int c) :: names.map .sym) := .scaled hc hone hne
    have hbuilt : buildProd [.num (.int c), symbolic names] = .prod (.num (.int c) :: names.map .sym) := by
      have hflat : flatFactors [.num (.int c), symbolic names] = .num (.int c) :: names.map .sym := by
        rw [flatFactors, if_neg (Bool.eq_false_iff.1 (Atom.num hc hone).isValue_eq_false.2),
          flatFactors_symbolic hne]
        intro factors h
        cases h
      have hall := buildProd_of_atoms hatoms hnormal.two_le_length
      unfold buildProd at hall ⊢
      rw [hflat, ← hall, flatFactors_of_atoms hatoms]
    rw [hbuilt]
    refine ⟨.prod hnormal, variablePart?_prod hne ?_⟩
    rw [List.filter_cons_of_neg Bool.false_ne_true, NormalFactors.filter_symbols]

end Expr

namespace Simplify

open Workings.Expr (NormalTerm Summands)

/-! ### Combining like terms -/

section

variable {terms : List Expr} (hterms : ∀ t ∈ terms, t.NormalTerm)

include hterms

/-- The part of a group is a symbol or a product of symbols. -/
theorem KeptGroups.exists_symbolic {groups : List WordGroup} (h : KeptGroups terms groups)
    {group : WordGroup} (hgroup : group ∈ groups) :
    ∃ names : List String, names ≠ [] ∧ group.2 = some (.symbolic names) := by
  cases hpart : group.2 with
  | none =>
    have hnone : terms.filter (·.variablePart?.isNone) = [] := by
      refine List.filter_eq_nil_iff.2 fun t ht hisNone => ?_
      obtain ⟨names, -, hsome⟩ := (hterms t ht).exists_symbolic
      rw [hsome] at hisNone
      cases hisNone
    have hnumbers := h.numbers
    rw [hnone, List.map_nil, List.filter_nil, List.map_eq_nil_iff, List.filter_eq_nil_iff] at hnumbers
    exact absurd (hpart ▸ rfl) (hnumbers group hgroup)
  | some part =>
    have hmem : part ∈ (Expr.variableParts terms).filter (Expr.totalOf terms · ≠ 0) :=
      h.parts ▸ List.mem_filterMap.2 ⟨group, hgroup, hpart⟩
    obtain ⟨t, ht, hsome⟩ := List.mem_filterMap.1 (mem_of_mem_eraseDups (List.mem_of_mem_filter hmem))
    obtain ⟨names, hne, hsymbolic⟩ := (hterms t ht).exists_symbolic
    exact ⟨names, hne, hsome.symm.trans hsymbolic⟩

/-- Combining terms in normal form gives terms in normal form, with different variable parts. -/
theorem normal_combineLikeTerms (hfits : Fits terms) :
    (∀ t ∈ combineLikeTerms terms, t.NormalTerm) ∧
      (combineLikeTerms terms).filterMap Expr.variablePart? =
        (Expr.variableParts terms).filter (Expr.totalOf terms · ≠ 0) := by
  have hunrounded : ∀ t ∈ terms, t.Everywhere Unrounded := fun t ht => (hterms t ht).unrounded
  obtain ⟨groups, hstored, hgroups, -⟩ := exists_gathered.{0} hunrounded hfits
  have hkept := hgroups.kept
  rw [combineLikeTerms_of_groups hstored]
  have hgroup : ∀ group ∈ groups.filter (·.1 ≠ 0),
      group.term.NormalTerm ∧ group.term.variablePart? = group.2 := by
    intro group hmem
    obtain ⟨names, hne, hpart⟩ := hkept.exists_symbolic hterms hmem
    rw [WordGroup.term, hpart]
    exact Expr.buildProd_symbolic hne (hkept.nonzero group hmem)
  refine ⟨List.forall_mem_map.2 fun group hmem => (hgroup group hmem).1, ?_⟩
  rw [List.filterMap_map, ← hkept.parts]
  exact List.filterMap_congr fun group hmem => (hgroup group hmem).2

end

theorem pairwise_variableParts (terms : List Expr) :
    (Expr.variableParts terms).Pairwise fun a b => (a == b) = false :=
  (pairwise_eraseDups _).imp fun h => Bool.eq_false_iff.2 fun heq => by
    rw [BEq.symm heq] at h
    cases h

theorem variableParts_sublist (terms : List Expr) :
    (Expr.variableParts terms).Sublist (terms.filterMap Expr.variablePart?) := by
  unfold Expr.variableParts
  induction terms.filterMap Expr.variablePart? using List.reverseRecOn with
  | nil => exact List.Sublist.refl _
  | append_singleton parts part ih =>
    rw [eraseDups_concat]
    split
    · exact ih.trans (List.sublist_append_left _ _)
    · exact ih.append_right [part]

/-! ### Sums of terms in normal form -/

/-- Only the terms that are not numbers have a variable part. -/
theorem filterMap_variablePart_others (terms : List Expr) :
    (terms.filter (!·.isNumber)).filterMap Expr.variablePart? = terms.filterMap Expr.variablePart? := by
  rw [List.filterMap_filter]
  refine List.filterMap_congr fun t _ => ?_
  cases t <;> rfl

theorem filterMap_variablePart_numbers (values : List Number) :
    (values.map Expr.num).filterMap Expr.variablePart? = [] := by
  rw [List.filterMap_map]
  exact List.filterMap_eq_nil_iff.2 fun _ _ => rfl

theorem length_variableParts {terms : List Expr} (h : ∀ t ∈ terms, t.NormalTerm) :
    (terms.filterMap Expr.variablePart?).length = terms.length := by
  induction terms with
  | nil => rfl
  | cons t terms ih =>
    obtain ⟨ht, hterms⟩ := List.forall_mem_cons.1 h
    obtain ⟨names, -, hpart⟩ := ht.exists_symbolic
    rw [List.filterMap_cons_some hpart, List.length_cons, List.length_cons, ih hterms]

section

variable {terms : List Expr} (h : Summands terms) (hfits : Fits (terms.filter (!·.isNumber)))

include h

theorem exists_word {n : Number} (hn : n ∈ terms.filterMap Expr.number?) :
    ∃ m : Int64, m ≠ 0 ∧ n = .int m := by
  obtain ⟨t, ht, hnumber⟩ := List.mem_filterMap.1 hn
  rcases h.term t ht with hterm | ⟨m, hm, rfl⟩
  · cases hterm <;> cases hnumber
  · cases hnumber
    exact ⟨m, hm, rfl⟩

/-- There is one number at most, and it stays. -/
theorem collected_eq : collected terms =
    (terms.filterMap Expr.number?).map .num ++ combineLikeTerms (terms.filter (!·.isNumber)) := by
  have hone := h.number
  have hzero := h.number_ne_zero
  unfold collected
  match hnumbers : terms.filterMap Expr.number? with
  | [] => rfl
  | [n] =>
    rw [hnumbers] at hzero
    rw [List.head?_cons, Option.filter_some, hzero n List.mem_cons_self]
    rfl
  | _ :: _ :: _ =>
    rw [hnumbers] at hone
    simp at hone

include hfits

theorem apart_collected :
    ((collected terms).filterMap Expr.variablePart?).Pairwise fun a b => (a == b) = false := by
  rw [collected_eq h, List.filterMap_append, filterMap_variablePart_numbers, List.nil_append,
    (normal_combineLikeTerms h.normalTerm hfits).2]
  exact (pairwise_variableParts _).filter _

theorem term_collected : ∀ t ∈ collected terms, t.NormalTerm ∨ ∃ n : Int64, n ≠ 0 ∧ t = .num (.int n) := by
  intro t ht
  rw [collected_eq h] at ht
  rcases List.mem_append.1 ht with ht | ht
  · obtain ⟨n, hn, rfl⟩ := List.mem_map.1 ht
    obtain ⟨m, hm, rfl⟩ := exists_word h hn
    exact .inr ⟨m, hm, rfl⟩
  · exact .inl ((normal_combineLikeTerms h.normalTerm hfits).1 t ht)

theorem number_collected : ((collected terms).filterMap Expr.number?).length ≤ 1 := by
  have hterms : (combineLikeTerms (terms.filter (!·.isNumber))).filterMap Expr.number? = [] := by
    refine List.filterMap_eq_nil_iff.2 fun t ht => ?_
    cases (normal_combineLikeTerms h.normalTerm hfits).1 t ht <;> rfl
  rw [collected_eq h, List.filterMap_append, hterms, List.append_nil, Expr.filterMap_numbers]
  exact h.number

/-- What comes of a sum of terms in normal form is in normal form. -/
theorem normal_collected : (Expr.sumOf (collected terms)).Normal := by
  have hterm := term_collected h hfits
  have hnumber := number_collected h hfits
  have hapart := apart_collected h hfits
  match collected terms, hterm, hnumber, hapart with
  | [], _, _, _ => exact .num 0
  | [t], hterm, _, _ =>
    rcases hterm t List.mem_cons_self with ht | ⟨n, -, rfl⟩
    · exact .term ht
    · exact .num n
  | first :: second :: rest, hterm, hnumber, hapart =>
    exact .sum ⟨Nat.le_add_left 2 rest.length, hterm, hnumber, hapart⟩

/-- A sum in which no terms are combined and none cancel was in normal form before. -/
theorem normal_of_length (hlength : (collected terms).length = terms.length) : (Expr.sum terms).Normal := by
  obtain ⟨hnormal, hparts⟩ := normal_combineLikeTerms h.normalTerm hfits
  have hsplit := Summands.length_split terms
  have hcollected := length_collected h
  have hsublist := variableParts_sublist (terms.filter (!·.isNumber))
  have hkept := List.length_filter_le (Expr.totalOf (terms.filter (!·.isNumber)) · ≠ 0)
    (Expr.variableParts (terms.filter (!·.isNumber)))
  rw [← hparts, length_variableParts hnormal] at hkept
  have hother := length_variableParts h.normalTerm
  have heq := hsublist.eq_of_length_le (by omega)
  have hapart := pairwise_variableParts (terms.filter (!·.isNumber))
  rw [heq, filterMap_variablePart_others] at hapart
  exact .sum ⟨h.two, h.term, h.number, hapart⟩

end

end Simplify

/-! ### Solutions -/

namespace Expr

/-- Expressions that are worked out to normal form: they are in normal form, but for the place of a number
among symbols or for terms that are alike, or they are sums of integers. -/
inductive InReach : Expr → Prop
  | normal {e : Expr} (h : e.Normal) : InReach e
  | product {before after : List String} {n : Int64} (zero : n ≠ 0) (one : n ≠ 1) (symbols : before ≠ []) :
      InReach (.prod (numberAmong before n after))
  | terms {terms : List Expr} (h : Summands terms) (fits : Simplify.Fits (terms.filter (!·.isNumber))) :
      InReach (.sum terms)
  | numbers {ns : List Int64} (words : ∀ n ∈ ns, n ≠ Int64.minValue)
      (fronts : ∀ front, front <+: ns → ((front.map Int64.toInt).sum).natAbs < 2 ^ 63) :
      InReach (sumOfNumbers (ns.map .int))

end Expr

/-- To every depth from three on, an expression that is alone on a strict sheet is simplified to the same
expression in normal form, and the tree becomes that. -/
def EndsNormal (bindings : Bindings) (options : Options) (e : Expr) : Prop :=
  ∃ r : Expr, r.Normal ∧ ∀ depth : Nat, ∃ t,
    Work.exec (Expr.simplifyAt (depth + 3) e) (Sheet.new e bindings options true) = (.ok r, t) ∧ t.tree = r

section

variable {bindings : Bindings} {options : Options} (hvalues : bindings.values = [])
  (hclamp : ∀ n : Int64, options.clamp (.int n) = .int n)

include hvalues hclamp

/-- In a sum of terms in normal form those that are alike are combined. -/
theorem endsNormal_terms {terms : List Expr} (h : Expr.Summands terms)
    (hfits : Simplify.Fits (terms.filter (!·.isNumber))) : EndsNormal bindings options (.sum terms) := by
  have hkeeps (depth : Nat) : ∀ t ∈ terms, Keeps (Expr.simplifyAt (depth + 2)) t := by
    intro t ht
    rcases h.term t ht with ht | ⟨n, -, rfl⟩
    · exact keeps_normalTerm ht depth
    · exact keeps_num n (depth + 1)
  have hsum (depth : Nat) : Work.exec (Expr.simplifyAt (depth + 3) (.sum terms))
      (Sheet.new (.sum terms) bindings options true) = _ :=
    Simplify.exec_sum_summands h (hkeeps depth) (Sheet.quiet_new hvalues hclamp _ true)
  by_cases hchanged : (Simplify.collected terms).length ≠ terms.length ∨
      (Simplify.collected terms).length = 1
  · have hwhole := Expr.rewrites_self (.sum terms) (.sumOf (Simplify.collected terms))
    obtain ⟨t, hchange, htree⟩ : ∃ t, Work.exec
        (Work.change (.sum terms) (.sumOf (Simplify.collected terms)))
        (Sheet.new (.sum terms) bindings options true) = (.ok (), t) ∧
        t.tree = .sumOf (Simplify.collected terms) :=
      ⟨_, (Work.exec_changeWith _ _).trans (if_pos hwhole.occurs), hwhole.replaced⟩
    rw [if_pos hchanged] at hsum
    refine ⟨_, Simplify.normal_collected h hfits, fun depth => ⟨t, ?_, htree⟩⟩
    exact (hsum depth).trans (Work.exec_bind_ok hchange)
  · have hnormal : (Expr.sum terms).Normal := by
      refine Simplify.normal_of_length h hfits ?_
      by_contra hlength
      exact hchanged (.inl hlength)
    rw [if_neg hchanged] at hsum
    exact ⟨_, hnormal, fun depth => ⟨_, hsum depth, rfl⟩⟩

omit hvalues in
/-- A sum of integers ends in a number. -/
theorem endsNormal_numbers {ns : List Int64} (hns : ∀ n ∈ ns, n ≠ Int64.minValue)
    (hfronts : ∀ front, front <+: ns → ((front.map Int64.toInt).sum).natAbs < 2 ^ 63) :
    EndsNormal bindings options (sumOfNumbers (ns.map .int)) := by
  obtain ⟨-, hvalue⟩ := Number.whole_ofInt (hfronts ns (List.prefix_refl ns))
  change (Int64.ofInt _).toInt = _ at hvalue
  refine ⟨.num (.int (.ofInt (ns.map Int64.toInt).sum)), .num _, fun depth => ?_⟩
  obtain ⟨t, hexec, hstands, -⟩ := (turns_sum hns hfronts (fun n _ => hclamp n) hvalue (depth + 1)).exists_run
    (s := Sheet.new (sumOfNumbers (ns.map .int)) bindings options true) ⟨rfl, rfl, rfl⟩
  exact ⟨t, hexec, hstands.tree⟩

theorem endsNormal_inReach {e : Expr} (h : e.InReach) : EndsNormal bindings options e := by
  cases h with
  | normal h =>
    exact ⟨e, h, fun depth => ⟨_, keeps_normal h depth _ (Sheet.quiet_new hvalues hclamp e true), rfl⟩⟩
  | @product before after n zero one symbols =>
    refine ⟨.prod (numberAmong [] n (before ++ after)),
      .term (.prod (normalFactors_numberAmong zero one symbols)), fun depth => ?_⟩
    obtain ⟨t, hexec, htree, -⟩ := exec_numberAmong after zero one symbols hvalues hclamp true (depth + 1)
    exact ⟨t, hexec, htree⟩
  | terms h fits => exact endsNormal_terms hvalues hclamp h fits
  | numbers words fronts => exact endsNormal_numbers hclamp words fronts

/-- An expression in reach is solved, strict or not, and no change is left out. The solution is in normal
form and is what the tree has become, and to solve it once more changes nothing. -/
theorem solve_inReach {e : Expr} (h : e.InReach) (strict : Bool) :
    ∃ r t, solve e bindings options strict = .ok (r, t) ∧ r.Normal ∧ t.tree = r ∧ t.skipped = 0 ∧
      solve r bindings options strict = .ok (r, Sheet.new r bindings options strict) := by
  obtain ⟨r, hnormal, hends⟩ := endsNormal_inReach hvalues hclamp h
  obtain ⟨t, hexec, htree⟩ := hends 65533
  have hsolve := solve_of_simplify (Bindings.replaceSymbols_of_values hvalues e) hexec
    hnormal.normalize_number hnormal.hasCalculus_eq_false
  obtain ⟨u, hsolve', hsame, hskipped⟩ := solve_of_strict hsolve strict
  exact ⟨r, u, hsolve', hnormal, hsame.trans htree, hskipped,
    solve_of_normal hvalues hclamp hnormal strict⟩

/-- To work out an expression in reach on a strict sheet comes to an end three steps down, whatever the
options do beside taking integers for themselves. -/
theorem solveWith_inReach {e : Expr} (h : e.InReach) :
    ∃ r : Expr, r.Normal ∧ ∀ depth, 3 ≤ depth →
      (Work.exec (Work.solveWith (Expr.simplifyAt depth)) (Sheet.new e bindings options true)).1 = .ok r := by
  obtain ⟨r, hnormal, hends⟩ := endsNormal_inReach hvalues hclamp h
  refine ⟨r, hnormal, fun depth hdepth => ?_⟩
  obtain ⟨depth, rfl⟩ := Nat.exists_eq_add_of_le' hdepth
  obtain ⟨t, hexec, -⟩ := hends depth
  rw [Work.exec_solveWith (Bindings.replaceSymbols_of_values hvalues e) hexec hnormal.normalize_number
    hnormal.hasCalculus_eq_false]

end

end Workings
