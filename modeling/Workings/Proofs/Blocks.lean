import Workings.Proofs.Substituting

/-!
# Blocks beside the tree

While the parts of a node are worked on they stand in an open block, and a change is made in the tree
and in every expression of the block. The tree and the expressions of the block are searched one by one,
and in each of them part of a longer sum or product counts only if there is no whole occurrence. So they
need not agree on what is an occurrence: if the tree has a whole one, an expression of the block that
has none may still be changed in part.

`replace_below_iff` says that this is the only way in which a block falls out of step with the node it
was opened for, and `Sheet.block_follows` that a block follows its node through all changes that do not
go this way.
-/

namespace Workings

namespace Target

variable {target : Target}

/-! ### Where a target does not occur -/

theorem count_of_isWhole {e : Expr} (h : target.isWhole e = true) : target.count e = 1 := by
  cases e <;> simp [count, h]

theorem isWhole_of_count_eq_zero {e : Expr} (h : target.count e = 0) : target.isWhole e = false := by
  rw [Bool.eq_false_iff]
  intro hwhole
  cases (count_of_isWhole hwhole).symm.trans h

theorem countAny_eq_false_iff {es : List Expr} :
    target.countAny es = false ↔ ∀ e ∈ es, target.count e = 0 := by
  induction es with
  | nil => simp [countAny]
  | cons e es ih =>
    rw [countAny, Bool.or_eq_false_iff, ih, List.forall_mem_cons, decide_eq_false_iff_not,
      Nat.pos_iff_ne_zero, not_not]

theorem countAll_eq_zero_iff {es : List Expr} :
    target.countAll es = 0 ↔ ∀ e ∈ es, target.count e = 0 := by
  induction es with
  | nil => simp [countAll]
  | cons e es ih => rw [countAll, Nat.add_eq_zero_iff, ih, List.forall_mem_cons]

theorem count_sum_eq_zero_iff {terms : List Expr} :
    target.count (.sum terms) = 0 ↔ target.isWhole (.sum terms) = false ∧
      (target.inPart && (sumRest? terms target.literal).isSome) = false ∧
      ∀ t ∈ terms, target.count t = 0 := by
  rw [count, ite_eq_right_iff, ← countAny_eq_false_iff]
  simp [and_assoc]

theorem count_prod_eq_zero_iff {factors : List Expr} :
    target.count (.prod factors) = 0 ↔ target.isWhole (.prod factors) = false ∧
      (target.inPart && (productRest? factors target.literal).isSome) = false ∧
      ∀ f ∈ factors, target.count f = 0 := by
  rw [count, ite_eq_right_iff, ← countAny_eq_false_iff]
  simp [and_assoc]

/-- Where a target does not occur, it does not occur below. -/
theorem count_of_mem_children {e part : Expr} (h : target.count e = 0) (hpart : part ∈ e.children) :
    target.count part = 0 := by
  have hnot := isWhole_of_count_eq_zero h
  cases e with
  | num _ | sym _ => cases hpart
  | sum terms => exact (count_sum_eq_zero_iff.1 h).2.2 part hpart
  | prod factors => exact (count_prod_eq_zero_iff.1 h).2.2 part hpart
  | pow base exponent =>
    rw [count, hnot, if_neg Bool.false_ne_true, Nat.add_eq_zero_iff] at h
    rcases List.mem_pair.1 hpart with rfl | rfl
    · exact h.1
    · exact h.2
  | call f functional subscript superscript =>
    rw [count, hnot, if_neg Bool.false_ne_true, Nat.add_eq_zero_iff, Nat.add_eq_zero_iff,
      countAll_eq_zero_iff, countAll_eq_zero_iff, countAll_eq_zero_iff] at h
    simp only [Expr.children, List.mem_append] at hpart
    rcases hpart with (hpart | hpart) | hpart
    · exact h.1.1 part hpart
    · exact h.1.2 part hpart
    · exact h.2 part hpart
  | deriv body vars =>
    rw [count, hnot, if_neg Bool.false_ne_true, Nat.add_eq_zero_iff] at h
    rw [List.mem_singleton.1 hpart]
    exact h.1
  | integral body var lower upper =>
    have hoption {bound : Option Expr} (hcount : target.countOption bound = 0)
        (hmem : part ∈ bound.toList) : target.count part = 0 := by
      cases bound with
      | none => cases hmem
      | some e =>
        rw [List.mem_singleton.1 hmem]
        exact hcount
    rw [count, hnot, if_neg Bool.false_ne_true, Nat.add_eq_zero_iff, Nat.add_eq_zero_iff,
      Nat.add_eq_zero_iff] at h
    simp only [Expr.children, List.mem_cons, List.mem_append] at hpart
    rcases hpart with rfl | hpart | hpart
    · exact h.1.1.1
    · exact hoption h.1.2 hpart
    · exact hoption h.2 hpart

end Target

namespace Replacement

variable {r : Replacement}

theorem isSome_partOfSum? (r : Replacement) (terms : List Expr) :
    (r.partOfSum? terms).isSome =
      (r.target.inPart && (Target.sumRest? terms r.target.literal).isSome) := by
  unfold partOfSum?
  cases r.target.inPart <;> simp

theorem isSome_partOfProduct? (r : Replacement) (factors : List Expr) :
    (r.partOfProduct? factors).isSome =
      (r.target.inPart && (Target.productRest? factors r.target.literal).isSome) := by
  unfold partOfProduct?
  cases r.target.inPart <;> simp

/-- Nothing takes the place of a node where the target does not occur. -/
theorem actsAt_of_count_eq_zero {e : Expr} (h : r.target.count e = 0) : r.actsAt e = false := by
  refine Bool.or_eq_false_iff.2 ⟨Target.isWhole_of_count_eq_zero h, ?_⟩
  cases e with
  | sum terms => exact (isSome_partOfSum? r terms).trans (Target.count_sum_eq_zero_iff.1 h).2.1
  | prod factors =>
    obtain ⟨-, hpart, hfactors⟩ := Target.count_prod_eq_zero_iff.1 h
    refine Bool.or_eq_false_iff.2 ⟨(isSome_partOfProduct? r factors).trans hpart, ?_⟩
    rw [isNegatedPair, Bool.and_eq_false_iff, List.any_eq_false]
    refine .inr fun f hf hnegated => ?_
    have hnot := Target.isWhole_of_count_eq_zero (hfactors f hf)
    rw [Target.isWhole, hnegated, Bool.or_true] at hnot
    cases hnot
  | num _ | sym _ | pow _ _ | call _ _ _ _ | deriv _ _ | integral _ _ _ _ => rfl

theorem rename_of_isWhole {name : String} (h : r.target.isWhole (.sym name) = false) :
    r.rename name = name := by
  rw [rename, whole?_eq_none_of_isWhole h]

/-- Nothing is replaced where the target does not occur. -/
theorem apply_of_count_eq_zero {e : Expr} (h : r.target.count e = 0) : r.apply e = e := by
  induction e using Expr.induction_on_parts with
  | h e ih =>
    have hnot := Target.isWhole_of_count_eq_zero h
    have hacts := actsAt_of_count_eq_zero h
    have hpart (part : Expr) (hmem : part ∈ e.children) : r.apply part = part :=
      ih part hmem (Target.count_of_mem_children h hmem)
    have hall (es : List Expr) (hes : ∀ part ∈ es, part ∈ e.children) : es.map r.apply = es :=
      (List.map_congr_left fun part hmem => hpart part (hes part hmem)).trans (List.map_id es)
    cases e with
    | num n => exact apply_num hacts
    | sym name => exact apply_sym hacts
    | sum terms => rw [apply_sum hacts, hall terms fun _ h => h]
    | prod factors => rw [apply_prod hacts, hall factors fun _ h => h]
    | pow base exponent =>
      rw [apply_pow hacts, hpart base (by simp [Expr.children]),
        hpart exponent (by simp [Expr.children])]
    | call f functional subscript superscript =>
      rw [apply_call hacts,
        hall functional (by simp +contextual [Expr.children]),
        hall subscript (by simp +contextual [Expr.children]),
        hall superscript (by simp +contextual [Expr.children])]
    | deriv body vars =>
      rw [Target.count, hnot, if_neg Bool.false_ne_true,
        Nat.add_eq_zero_iff, List.countP_eq_zero] at h
      rw [apply_deriv hacts, hpart body (by simp [Expr.children])]
      refine congrArg (Expr.deriv body) ((List.map_congr_left fun v hv => ?_).trans (List.map_id vars))
      exact congrArg (·, v.2) (rename_of_isWhole (Bool.eq_false_iff.2 (h.2 v hv)))
    | integral body var lower upper =>
      rw [Target.count, hnot, if_neg Bool.false_ne_true] at h
      simp only [Nat.add_eq_zero_iff, ite_eq_right_iff, one_ne_zero, imp_false] at h
      have hoption (bound : Option Expr)
          (hb : ∀ part ∈ bound.toList, part ∈ Expr.children (.integral body var lower upper)) :
          bound.map r.apply = bound := by
        cases bound with
        | none => rfl
        | some e => rw [Option.map_some, hpart e (hb e (by simp))]
      rw [apply_integral hacts, hpart body (by simp [Expr.children]),
        rename_of_isWhole (Bool.eq_false_iff.2 h.1.1.2),
        hoption lower (by simp +contextual [Expr.children]),
        hoption upper (by simp +contextual [Expr.children])]

/-! ### Parts of a tree -/

/-- What `Expr.replace` replaces in a tree. -/
def inTree (tree part value : Expr) : Replacement :=
  ⟨Target.within tree part, value, value.neg⟩

/-- Whether something takes the place of a node on the way to a part of an expression, or of that part.
The way says of each node which of its children comes next. -/
def actsAlong (r : Replacement) : List Nat → Expr → Bool
  | [], e => r.actsAt e
  | i :: path, e => r.actsAt e || e.children[i]?.any (r.actsAlong path)

end Replacement

namespace Expr

/-- The part of an expression at the end of a way. -/
def at? : List Nat → Expr → Option Expr
  | [], e => some e
  | i :: path, e => e.children[i]?.bind (at? path)

/-- A part is what the replacement makes of it, unless something takes the place of a node on the way
to it. -/
theorem at?_apply {r : Replacement} {path : List Nat} {e : Expr} (h : r.actsAlong path e = false) :
    (r.apply e).at? path = (e.at? path).map r.apply := by
  induction path generalizing e with
  | nil => rfl
  | cons i path ih =>
    obtain ⟨hacts, hnext⟩ := Bool.or_eq_false_iff.1 h
    rw [at?, at?, Replacement.children_apply hacts, List.getElem?_map]
    cases hchild : e.children[i]? with
    | none => rfl
    | some child =>
      rw [hchild] at hnext
      exact ih hnext

theorem actsAt_of_actsAlong {r : Replacement} {path : List Nat} {e part : Expr}
    (h : r.actsAlong path e = false) (hpart : e.at? path = some part) : r.actsAt part = false := by
  induction path generalizing e with
  | nil =>
    cases hpart
    exact h
  | cons i path ih =>
    obtain ⟨child, hchild, hpart⟩ := Option.bind_eq_some_iff.1 hpart
    have hnext := (Bool.or_eq_false_iff.1 h).2
    rw [hchild] at hnext
    exact ih hnext hpart

theorem count_of_at? {target : Target} {path : List Nat} {e part : Expr}
    (h : target.count e = 0) (hpart : e.at? path = some part) : target.count part = 0 := by
  induction path generalizing e with
  | nil =>
    cases hpart
    exact h
  | cons i path ih =>
    obtain ⟨child, hchild, hpart⟩ := Option.bind_eq_some_iff.1 hpart
    exact ih (Target.count_of_mem_children h (List.mem_of_getElem? hchild)) hpart

/-! ### Whole occurrences -/

/-- Whether an expression occurs in a tree literally or with the opposite sign. -/
def hasWhole (tree part : Expr) : Bool :=
  decide (0 < Target.count ⟨part, part.neg, false⟩ tree)

theorem within_of_hasWhole {tree part : Expr} (h : tree.hasWhole part = true) :
    Target.within tree part = ⟨part, part.neg, false⟩ :=
  if_neg (Nat.ne_of_gt (of_decide_eq_true h))

theorem within_of_not_hasWhole {tree part : Expr} (h : tree.hasWhole part = false) :
    Target.within tree part = ⟨part, part.neg, true⟩ :=
  if_pos (Nat.eq_zero_of_not_pos (of_decide_eq_false h))

/-- Where a tree has a whole occurrence, those of its parts that have none are left as they are. -/
def Together (tree part value : Expr) (es : List Expr) : Prop :=
  tree.hasWhole part = true → ∀ e ∈ es, e.hasWhole part = false → e.replace part value = e

/-- What becomes of a part of a tree together with the tree, and what becomes of it by itself. -/
theorem apply_inTree_eq_replace_iff {tree e part : Expr} (value : Expr)
    (h : tree.hasWhole part = false → e.hasWhole part = false) :
    (Replacement.inTree tree part value).apply e = e.replace part value ↔
      (tree.hasWhole part = true → e.hasWhole part = false → e.replace part value = e) := by
  unfold Replacement.inTree replace
  cases htree : tree.hasWhole part with
  | false =>
    rw [within_of_not_hasWhole htree, within_of_not_hasWhole (h htree)]
    simp
  | true =>
    rw [within_of_hasWhole htree]
    cases he : e.hasWhole part with
    | true =>
      rw [within_of_hasWhole he]
      simp
    | false =>
      have hcount : Target.count ⟨part, part.neg, false⟩ e = 0 :=
        Nat.eq_zero_of_not_pos (of_decide_eq_false he)
      rw [Replacement.apply_of_count_eq_zero hcount]
      simp [eq_comm]

end Expr

/-! ### A node and the block of its children -/

theorem Sheet.block_accept (s : Sheet) (c : Change) (id : Nat) :
    (s.accept c).block id = (s.block id).map (·.replace c.part c.result) := by
  unfold Sheet.block Sheet.accept
  simp only [List.getD_eq_getElem?_getD, List.getElem?_map]
  cases s.blocks[id]? <;> rfl

section

variable {node : List Expr → Expr} (hnode : node = .sum ∨ node = .prod)

include hnode

theorem Replacement.apply_node {r : Replacement} {es : List Expr} (h : r.actsAt (node es) = false) :
    r.apply (node es) = node (es.map r.apply) := by
  rcases hnode with rfl | rfl
  · exact apply_sum h
  · exact apply_prod h

theorem children_node (es : List Expr) : (node es).children = es := by
  rcases hnode with rfl | rfl <;> rfl

/-- What becomes of a node of a tree is made up of what becomes of its children by themselves exactly
if the tree and the children go together. -/
theorem apply_node_eq_iff {tree part value : Expr} {path : List Nat} {es : List Expr}
    (hat : tree.at? path = some (node es))
    (hacts : (Replacement.inTree tree part value).actsAt (node es) = false) :
    (Replacement.inTree tree part value).apply (node es) = node (es.map (·.replace part value)) ↔
      tree.Together part value es := by
  have hpart (e : Expr) (he : e ∈ es) :
      tree.hasWhole part = false → e.hasWhole part = false := by
    intro h
    have hcount := Expr.count_of_at? (Nat.eq_zero_of_not_pos (of_decide_eq_false h)) hat
    rw [← children_node hnode es] at he
    rw [Expr.hasWhole, Target.count_of_mem_children hcount he]
    rfl
  have hinj (as bs : List Expr) : node as = node bs ↔ as = bs := by
    rcases hnode with rfl | rfl <;> simp
  rw [Replacement.apply_node hnode hacts, hinj, List.map_inj_left]
  constructor
  · intro h htree e he
    exact (Expr.apply_inTree_eq_replace_iff value (hpart e he)).1 (h e he) htree
  · intro h e he
    exact (Expr.apply_inTree_eq_replace_iff value (hpart e he)).2 fun htree => h htree e he

/-- If nothing takes the place of a node on the way to it, a block that holds its children does so
after a change exactly if the tree and the children go together. -/
theorem Sheet.block_accept_iff {s : Sheet} {c : Change} {path : List Nat} {id : Nat}
    (hat : s.tree.at? path = some (node (s.block id)))
    (hbelow : (Replacement.inTree s.tree c.part c.result).actsAlong path s.tree = false) :
    (s.accept c).tree.at? path = some (node ((s.accept c).block id)) ↔
      s.tree.Together c.part c.result (s.block id) := by
  have htree : (s.accept c).tree.at? path =
      some ((Replacement.inTree s.tree c.part c.result).apply (node (s.block id))) := by
    have happly := Expr.at?_apply hbelow
    rw [hat] at happly
    exact happly
  rw [htree, Sheet.block_accept, Option.some_inj,
    apply_node_eq_iff hnode hat (Expr.actsAt_of_actsAlong hbelow hat)]

/-- A target that is found below a sum or a product, and not at it, is replaced in the node as it is
in each of the children by itself exactly if the node and its children go together. The same holds of
a block that holds the children of a node anywhere in the tree of a sheet. -/
theorem replace_below_iff (part value : Expr) (es : List Expr)
    (hbelow : (Replacement.inTree (node es) part value).actsAt (node es) = false) :
    ((node es).replace part value = node (es.map (·.replace part value)) ↔
      (node es).Together part value es) ∧
    ∀ (s : Sheet) (c : Change) (path : List Nat) (id : Nat),
      s.tree.at? path = some (node (s.block id)) →
      (Replacement.inTree s.tree c.part c.result).actsAlong path s.tree = false →
      ((s.accept c).tree.at? path = some (node ((s.accept c).block id)) ↔
        s.tree.Together c.part c.result (s.block id)) :=
  ⟨apply_node_eq_iff hnode (show (node es).at? [] = some (node es) from rfl) hbelow,
    fun _ _ _ _ hat hbelow => Sheet.block_accept_iff hnode hat hbelow⟩

/-- Changes, one after the other, that are made below a node and in which the tree and a block go
together. -/
def Sheet.Below (path : List Nat) (id : Nat) : List Change → Sheet → Prop
  | [], _ => True
  | c :: changes, s =>
    (Replacement.inTree s.tree c.part c.result).actsAlong path s.tree = false ∧
      s.tree.Together c.part c.result (s.block id) ∧ Below path id changes (s.accept c)

/-- A block that holds the children of a node still does so after such changes. -/
theorem Sheet.block_follows {path : List Nat} {id : Nat} {changes : List Change} {s : Sheet}
    (hat : s.tree.at? path = some (node (s.block id))) (h : s.Below path id changes) :
    (changes.foldl Sheet.accept s).tree.at? path =
      some (node ((changes.foldl Sheet.accept s).block id)) := by
  induction changes generalizing s with
  | nil => exact hat
  | cons c changes ih =>
    obtain ⟨hbelow, htogether, hrest⟩ := h
    exact ih ((Sheet.block_accept_iff hnode hat hbelow).2 htogether) hrest

end

/-- In `2 * 3 + x` the product is worked out in the sum as in its terms. -/
theorem replace_below_product :
    (Expr.sum [.prod [2, 3], .sym "x"]).replace (.prod [2, 3]) 6 =
      .sum (List.map (fun e : Expr => e.replace (.prod [2, 3]) 6) [.prod [2, 3], .sym "x"]) := by
  have h := replace_below_iff (.inl rfl) (.prod [2, 3]) 6 [.prod [2, 3], .sym "x"] (by decide +kernel)
  refine h.1.2 fun _ e he hwhole => ?_
  rcases List.mem_pair.1 he with rfl | rfl
  · have hfound : (Expr.prod [2, 3]).hasWhole (.prod [2, 3]) = true := by decide +kernel
    cases hfound.symm.trans hwhole
  · rfl

/-- In `2 * 3 + 2 * 3 * 4` the product occurs as a whole in the sum, and in the second term it does not:
it is worked out there only if the term stands by itself. -/
theorem replace_below_apart :
    0 < (Expr.sum [.prod [2, 3], .prod [2, 3, 4]]).occurrences (.prod [2, 3]) ∧
    (Replacement.inTree (.sum [.prod [2, 3], .prod [2, 3, 4]]) (.prod [2, 3]) 6).actsAt
      (.sum [.prod [2, 3], .prod [2, 3, 4]]) = false ∧
    (Expr.sum [.prod [2, 3], .prod [2, 3, 4]]).replace (.prod [2, 3]) 6 ≠
      .sum (List.map (fun e : Expr => e.replace (.prod [2, 3]) 6)
        [.prod [2, 3], .prod [2, 3, 4]]) := by
  refine ⟨by decide +kernel, by decide +kernel, fun h => ?_⟩
  have hdiffer : ((Expr.sum [.prod [2, 3], .prod [2, 3, 4]]).replace (.prod [2, 3]) 6 ==
      .sum (List.map (fun e : Expr => e.replace (.prod [2, 3]) 6)
        [.prod [2, 3], .prod [2, 3, 4]])) = false := by
    decide +kernel
  rw [h, Expr.beq_refl] at hdiffer
  cases hdiffer

end Workings
