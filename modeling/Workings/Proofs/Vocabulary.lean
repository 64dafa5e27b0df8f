import Workings.Proofs.Collecting
import Workings.Proofs.Inserting

/-!
# The expressions that can come up in a solution

A solution never makes up a symbol: what it writes into the tree is made of parts of the tree, of numbers,
and of what the rules of calculus give. A `Vocabulary` says which symbols may occur, and whether
derivatives and integrals may. The lemmas of this file say that the operations on expressions stay within
a vocabulary, and `Vocabulary.covers_replace` that a change of the tree does.
-/

namespace Workings

/-- Which symbols may occur, and whether derivatives and integrals may. What the rules of calculus give
is not followed further, so where these occur every symbol may. -/
structure Vocabulary where
  symbol : String → Prop
  calculus : Prop
  whole : calculus → ∀ name, symbol name

namespace Vocabulary

/-- The expressions that may stand at a node. -/
def Allows (v : Vocabulary) : Expr → Prop
  | .sym name => v.symbol name
  | .deriv _ _ | .integral _ _ _ _ => v.calculus
  | .num _ | .sum _ | .prod _ | .pow _ _ | .call _ _ _ _ => True

/-- The expressions within a vocabulary. -/
def Covers (v : Vocabulary) (e : Expr) : Prop :=
  e.Everywhere v.Allows

variable {v : Vocabulary}

theorem covers_of_calculus (h : v.calculus) (e : Expr) : v.Covers e := by
  refine Expr.everywhere_of_forall (fun e => ?_) e
  cases e with
  | sym name => exact v.whole h name
  | deriv _ _ | integral _ _ _ _ => exact h
  | num _ | sum _ | prod _ | pow _ _ | call _ _ _ _ => trivial

theorem covers_num (n : Number) : v.Covers (.num n) :=
  .num trivial

theorem covers_sum {terms : List Expr} (h : ∀ t ∈ terms, v.Covers t) : v.Covers (.sum terms) :=
  .sum trivial h

theorem covers_prod {factors : List Expr} (h : ∀ f ∈ factors, v.Covers f) :
    v.Covers (.prod factors) :=
  .prod trivial h

theorem covers_pow {base exponent : Expr} (hb : v.Covers base) (he : v.Covers exponent) :
    v.Covers (.pow base exponent) :=
  .intro trivial (List.forall_mem_cons.2 ⟨hb, List.forall_mem_singleton.2 he⟩)

theorem covers_call {f : Signature} {functional subscript superscript : List Expr}
    (hf : ∀ e ∈ functional, v.Covers e) (hs : ∀ e ∈ subscript, v.Covers e)
    (hp : ∀ e ∈ superscript, v.Covers e) :
    v.Covers (.call f functional subscript superscript) :=
  .intro trivial (List.forall_mem_append.2 ⟨List.forall_mem_append.2 ⟨hf, hs⟩, hp⟩)

theorem covers_numbers (ns : List Number) : ∀ e ∈ ns.map Expr.num, v.Covers e := by
  intro e he
  obtain ⟨n, _, rfl⟩ := List.mem_map.1 he
  exact covers_num n

theorem covers_pair {a b : Expr} (ha : v.Covers a) (hb : v.Covers b) :
    ∀ e ∈ [a, b], v.Covers e :=
  List.forall_mem_cons.2 ⟨ha, List.forall_mem_singleton.2 hb⟩

namespace Covers

theorem base {base exponent : Expr} (h : v.Covers (.pow base exponent)) : v.Covers base :=
  h.parts base (by simp [Expr.children])

theorem exponent {base exponent : Expr} (h : v.Covers (.pow base exponent)) : v.Covers exponent :=
  h.parts exponent (by simp [Expr.children])

theorem functional {f : Signature} {as bs cs : List Expr} (h : v.Covers (.call f as bs cs)) :
    ∀ a ∈ as, v.Covers a :=
  fun a ha => h.parts a (by simp [Expr.children, ha])

theorem subscript {f : Signature} {as bs cs : List Expr} (h : v.Covers (.call f as bs cs)) :
    ∀ b ∈ bs, v.Covers b :=
  fun b hb => h.parts b (by simp [Expr.children, hb])

theorem superscript {f : Signature} {as bs cs : List Expr} (h : v.Covers (.call f as bs cs)) :
    ∀ c ∈ cs, v.Covers c :=
  fun c hc => h.parts c (by simp [Expr.children, hc])

theorem neg {e : Expr} (h : v.Covers e) : v.Covers e.neg :=
  Expr.everywhere_neg (fun _ => trivial) trivial (fun _ _ => trivial) h

end Covers

/-! ### Normalizing constructors -/

theorem covers_unwrap {node : List Expr → Expr}
    (hnode : ∀ es, (∀ e ∈ es, v.Covers e) → v.Covers (node es)) {es : List Expr}
    (h : ∀ e ∈ es, v.Covers e) : v.Covers (Expr.unwrap node es) := by
  unfold Expr.unwrap
  split
  · exact h _ (by simp)
  · exact hnode _ h

theorem covers_sumOf {terms : List Expr} (h : ∀ t ∈ terms, v.Covers t) :
    v.Covers (Expr.sumOf terms) := by
  unfold Expr.sumOf
  split
  · exact covers_num _
  · exact h _ (by simp)
  · exact covers_sum h

theorem covers_buildProd {factors : List Expr} (h : ∀ f ∈ factors, v.Covers f) :
    v.Covers (Expr.buildProd factors) :=
  Expr.everywhere_buildProd trivial trivial (fun _ _ => trivial) h

theorem covers_buildPow {base exponent : Expr} (hb : v.Covers base) (he : v.Covers exponent) :
    v.Covers (Expr.buildPow base exponent) := by
  unfold Expr.buildPow
  split
  · exact hb
  · split
    · exact covers_num _
    · exact covers_pow hb he

theorem covers_orderOfMagnitude (order : Int64) (negative : Bool) :
    v.Covers (orderOfMagnitude order negative) := by
  have hpow : v.Covers (Expr.buildPow 10 (.int (max order 0))) :=
    covers_buildPow (covers_num _) (covers_num _)
  unfold orderOfMagnitude
  dsimp only
  split
  · exact covers_buildProd (covers_pair (covers_num _) hpow)
  · exact hpow

/-! ### Terms and factors -/

theorem covers_variablePart? {e part : Expr} (he : v.Covers e) (h : e.variablePart? = some part) :
    v.Covers part := by
  cases e with
  | num _ => cases h
  | prod factors =>
    simp only [Expr.variablePart?] at h
    split at h
    · cases h
    · cases h
      exact covers_unwrap (fun _ => covers_prod) fun f hf =>
        he.factors f (List.mem_of_mem_filter hf)
  | sym _ | sum _ | pow _ _ | call _ _ _ _ | deriv _ _ | integral _ _ _ _ =>
    cases h
    exact he

theorem covers_addToGroup {coefficient : Number} {part : Expr} (hpart : v.Covers part)
    {groups : List (Number × Expr)} (h : ∀ group ∈ groups, v.Covers group.2) :
    ∀ group ∈ Simplify.addToGroup coefficient part groups, v.Covers group.2 := by
  induction groups with
  | nil => exact List.forall_mem_singleton.2 hpart
  | cons group rest ih =>
    obtain ⟨hgroup, hrest⟩ := List.forall_mem_cons.1 h
    unfold Simplify.addToGroup
    split
    · exact List.forall_mem_cons.2 ⟨hgroup, hrest⟩
    · exact List.forall_mem_cons.2 ⟨hgroup, ih hrest⟩

theorem covers_groupTerms {terms : List Expr} (h : ∀ t ∈ terms, v.Covers t) :
    ∀ group ∈ Simplify.groupTerms terms, v.Covers group.2 := by
  unfold Simplify.groupTerms
  refine List.foldlRecOn
    (motive := fun groups : List (Number × Expr) => ∀ group ∈ groups, v.Covers group.2) _ _ ?_ ?_
  · exact fun _ hgroup => nomatch hgroup
  · intro groups hgroups t ht
    split
    · exact List.forall_mem_append.2 ⟨hgroups, List.forall_mem_singleton.2 (covers_num _)⟩
    · rename_i hpart
      exact covers_addToGroup (covers_variablePart? (h t ht) hpart) hgroups

theorem covers_combineLikeTerms {terms : List Expr} (h : ∀ t ∈ terms, v.Covers t) :
    ∀ t ∈ Simplify.combineLikeTerms terms, v.Covers t := by
  intro t ht
  obtain ⟨group, hgroup, rfl⟩ := List.mem_map.1 ht
  have hpart := covers_groupTerms h group (List.mem_of_mem_filter hgroup)
  exact covers_buildProd (covers_pair (covers_num _) hpart)

theorem covers_canonicalSort {factors : List Expr} (h : ∀ f ∈ factors, v.Covers f) :
    ∀ f ∈ Expr.canonicalSort factors, v.Covers f :=
  fun f hf => h f ((Simplify.perm_canonicalSort factors).mem_iff.1 hf)

/-- A product distributed over its first sum. -/
theorem covers_distributed {factors terms others : List Expr} (h : ∀ f ∈ factors, v.Covers f)
    (hsum : Simplify.firstSum? factors = some (terms, others)) :
    v.Covers (.sum (terms.map fun term => Expr.buildProd (others ++ [term]))) := by
  have hmem : ∀ f ∈ Expr.sum terms :: others, v.Covers f :=
    fun f hf => h f ((Simplify.perm_firstSum? hsum).mem_iff.2 hf)
  obtain ⟨hterms, hothers⟩ := List.forall_mem_cons.1 hmem
  refine covers_sum fun product hproduct => ?_
  obtain ⟨term, hterm, rfl⟩ := List.mem_map.1 hproduct
  exact covers_buildProd
    (List.forall_mem_append.2 ⟨hothers, List.forall_mem_singleton.2 (hterms.terms term hterm)⟩)

/-! ### Replacements -/

theorem sublist_of_difference? {wanted items rest : List Expr}
    (h : Target.difference? wanted items = some rest) : rest.Sublist items := by
  induction items generalizing wanted rest with
  | nil =>
    unfold Target.difference? at h
    split at h
    · cases h
      exact .slnil
    · cases h
  | cons item items ih =>
    unfold Target.difference? at h
    split at h
    · exact (ih h).cons item
    · obtain ⟨rest', hrest, rfl⟩ := Option.map_eq_some_iff.1 h
      exact (ih hrest).cons_cons item

theorem sublist_of_leftover? {items wanted rest : List Expr}
    (h : Target.leftover? items wanted = some rest) : rest.Sublist items := by
  unfold Target.leftover? at h
  split at h
  · cases h
  · exact sublist_of_difference? h

variable {r : Replacement}

/-- What takes the place of a node is made of its parts and of what is put in. -/
theorem covers_acts (hvalue : v.Covers r.value) (hnegated : v.Covers r.negated) {e e' : Expr}
    (he : v.Covers e) (h : r.Acts e e') : v.Covers e' := by
  cases h with
  | literal _ => exact hvalue
  | negated _ _ => exact hnegated
  | @product factors rest negative hrest =>
    obtain ⟨wanted, -, hleftover, -⟩ := Target.exists_of_productRest? hrest
    have hplain : ∀ f ∈ Target.plainFactors factors, v.Covers f :=
      Target.everywhere_plainFactors (fun _ _ => trivial) he.factors
    have hleft := (sublist_of_leftover? hleftover).subset
    refine covers_unwrap (fun _ => covers_prod) (List.forall_mem_append.2 ⟨?_, ?_⟩)
    · refine List.forall_mem_append.2 ⟨?_, fun f hf => hplain f (hleft hf)⟩
      unfold Replacement.asFactors
      split
      · rename_i hprod
        exact (hprod ▸ hvalue).factors
      · exact List.forall_mem_singleton.2 hvalue
    · split
      · exact List.forall_mem_singleton.2 (covers_num _)
      · exact fun _ hf => nomatch hf
  | @sum terms rest hrest =>
    obtain ⟨wanted, -, hleftover⟩ := Target.exists_of_sumRest? hrest
    have hplain : ∀ t ∈ Target.plainTerms terms, v.Covers t :=
      Target.everywhere_plainTerms (fun _ _ ha hb _ => covers_buildProd (covers_pair ha hb)) he.terms
    have hleft := (sublist_of_leftover? hleftover).subset
    refine covers_unwrap (fun _ => covers_sum)
      (List.forall_mem_append.2 ⟨?_, fun t ht => hplain t (hleft ht)⟩)
    unfold Replacement.asTerms
    split
    · rename_i hsum
      exact (hsum ▸ hvalue).terms
    · exact List.forall_mem_singleton.2 hvalue
  | pair _ => exact hvalue

/-- A replacement adds nothing but its value, whatever it replaces. -/
theorem covers_apply (hvalue : v.Covers r.value) (hnegated : v.Covers r.negated) {e : Expr}
    (he : v.Covers e) : v.Covers (r.apply e) := by
  refine Replacement.everywhere_apply (fun e e' => covers_acts hvalue hnegated) (fun e he hat => ?_) he
  cases e with
  | num n =>
    rw [Replacement.apply_num hat]
    trivial
  | sym name =>
    rw [Replacement.apply_sym hat]
    exact he.here
  | sum terms =>
    rw [Replacement.apply_sum hat]
    trivial
  | prod factors =>
    rw [Replacement.apply_prod hat]
    trivial
  | pow base exponent =>
    rw [Replacement.apply_pow hat]
    trivial
  | call f functional subscript superscript =>
    rw [Replacement.apply_call hat]
    trivial
  | deriv body vars =>
    rw [Replacement.apply_deriv hat]
    exact he.here
  | integral body var lower upper =>
    rw [Replacement.apply_integral hat]
    exact he.here

/-- A change of a tree stays within the vocabulary of the tree and of what is put in. -/
theorem covers_replace {tree : Expr} (htree : v.Covers tree) (part : Expr) {value : Expr}
    (hvalue : v.Covers value) : v.Covers (tree.replace part value) :=
  covers_apply hvalue hvalue.neg htree

end Vocabulary

end Workings
