import Mathlib.Data.List.Basic
import Workings.Expr.Walk
import Workings.Proofs.Symbols

/-!
# Walks in post-order

The nodes of an expression in post-order, each with its position, are listed by recursion over the parts
(`Expr.listing`). A walk finds them without recursion, by a stack and the position it visited last
(`Expr.walk_postOrder`).

A node with parts comes to the top of the stack twice. What tells the two apart is the last visit: the first
time it was outside of the node (`Walk.Outside`), the second time it was the last part. Between the two the
parts are walked through one after the other, and each of them is outside of the next.
-/

namespace Workings

namespace Expr

/-! ### Nodes and their positions -/

/-- The node at a position. -/
def node? (e : Expr) : Position → Option Expr
  | [] => some e
  | turn :: way => (node? e way).bind fun parent => parent.children[turn]?

/-- The nodes of an expression that stands at the given position, each node after its parts and the parts from left
to right. -/
def listingFrom (position : Position) (e : Expr) : List (Position × Expr) :=
  (e.children.attach.zipIdx.flatMap fun part => listingFrom (part.2 :: position) part.1.1) ++ [(position, e)]
termination_by sizeOf e
decreasing_by exact sizeOf_lt_of_mem_children part.1.2

/-- The nodes of an expression in post-order. -/
def listing (e : Expr) : List (Position × Expr) :=
  listingFrom [] e

/-- The nodes of parts next to each other, the first of which has the given number. -/
def listingOfParts (position : Position) (first : ℕ) (parts : List Expr) : List (Position × Expr) :=
  (parts.zipIdx first).flatMap fun part => listingFrom (part.2 :: position) part.1

theorem listingFrom_eq (position : Position) (e : Expr) :
    listingFrom position e = listingOfParts position 0 e.children ++ [(position, e)] := by
  have hattach : e.children.zipIdx = e.children.attach.zipIdx.map (Prod.map Subtype.val id) := by
    rw [← List.zipIdx_map, List.attach_map_subtype_val]
  rw [listingFrom, listingOfParts, hattach, List.flatMap_map]
  rfl

theorem listingOfParts_cons (position : Position) (first : ℕ) (part : Expr) (parts : List Expr) :
    listingOfParts position first (part :: parts) =
      listingFrom (first :: position) part ++ listingOfParts position (first + 1) parts := by
  rw [listingOfParts, List.zipIdx_cons, List.flatMap_cons]
  rfl

theorem node?_concat (e : Expr) (way : Position) (turn : ℕ) :
    e.node? (way ++ [turn]) = e.children[turn]?.bind (·.node? way) := by
  induction way with
  | nil => cases h : e.children[turn]? <;> simp [node?, h]
  | cons last way ih =>
    rw [List.cons_append, node?, ih]
    cases e.children[turn]? <;> rfl

/-- The nodes that are listed are those that are there. -/
theorem mem_listingFrom {e node : Expr} {position place : Position} :
    (place, node) ∈ listingFrom position e ↔ ∃ way, place = way ++ position ∧ e.node? way = some node := by
  induction e using induction_on_parts generalizing position place with
  | h e ih =>
    rw [listingFrom_eq, listingOfParts, List.mem_append, List.mem_flatMap, List.mem_singleton]
    constructor
    · rintro (⟨⟨part, turn⟩, hpart, hnode⟩ | hroot)
      · rw [List.mk_mem_zipIdx_iff_getElem?] at hpart
        obtain ⟨way, rfl, hway⟩ := (ih part (List.mem_of_getElem? hpart)).1 hnode
        refine ⟨way ++ [turn], by rw [List.append_assoc]; rfl, ?_⟩
        rw [node?_concat, hpart]
        exact hway
      · obtain ⟨rfl, rfl⟩ := Prod.mk.inj hroot
        exact ⟨[], rfl, rfl⟩
    · rintro ⟨way, rfl, hway⟩
      rcases List.eq_nil_or_concat way with rfl | ⟨way, turn, rfl⟩
      · cases hway
        exact .inr rfl
      · rw [List.concat_eq_append, node?_concat] at hway
        obtain ⟨part, hpart, hnode⟩ := Option.bind_eq_some_iff.1 hway
        refine .inl ⟨(part, turn), List.mk_mem_zipIdx_iff_getElem?.2 hpart, ?_⟩
        refine (ih part (List.mem_of_getElem? hpart)).2 ⟨way, ?_, hnode⟩
        rw [List.concat_eq_append, List.append_assoc]
        rfl

end Expr

/-- Whether a position comes before another one in post-order: it is below the other one, or to the left of it
where their ways part. -/
inductive Position.Before : Position → Position → Prop
  | below {position way : Position} (h : way ≠ []) : Before (way ++ position) position
  | left {position way way' : Position} {turn turn' : ℕ} (h : turn < turn') :
    Before (way ++ turn :: position) (way' ++ turn' :: position)

theorem Position.Before.ne {place place' : Position} (h : Before place place') : place ≠ place' := by
  cases h with
  | below h =>
    intro heq
    exact h (by simpa using heq)
  | @left position way way' turn turn' h =>
    intro heq
    have hways : way ++ [turn] ++ position = way' ++ [turn'] ++ position := by
      simpa using heq
    have hlast := List.append_inj_right' (List.append_cancel_right hways) rfl
    cases hlast
    exact Nat.lt_irrefl _ h

namespace Expr

theorem exists_way {e : Expr} {position : Position} {node : Position × Expr}
    (h : node ∈ listingFrom position e) :
    ∃ way, node.1 = way ++ position := by
  obtain ⟨way, hway, -⟩ := mem_listingFrom.1 h
  exact ⟨way, hway⟩

/-- The nodes are listed in post-order. -/
theorem before_listingFrom (e : Expr) (position : Position) :
    (listingFrom position e).Pairwise fun a b => Position.Before a.1 b.1 := by
  induction e using induction_on_parts generalizing position with
  | h e ih =>
    rw [listingFrom_eq, listingOfParts, List.pairwise_append, List.pairwise_flatMap]
    refine ⟨⟨fun part hpart => ?_, ?_⟩, List.pairwise_singleton _ _, fun a ha b hb => ?_⟩
    · exact ih part.1 (List.mem_of_getElem? (List.mem_zipIdx_iff_getElem?.1 hpart)) _
    · have hturns : e.children.zipIdx.Pairwise fun part part' => part.2 < part'.2 := by
        refine List.pairwise_map.1 ?_
        rw [List.zipIdx_map_snd]
        exact List.pairwise_lt_range'
      refine hturns.imp fun {part part'} hlt a ha b hb => ?_
      obtain ⟨way, hway⟩ := exists_way ha
      obtain ⟨way', hway'⟩ := exists_way hb
      rw [hway, hway']
      exact .left hlt
    · obtain ⟨part, -, hpart⟩ := List.mem_flatMap.1 ha
      obtain ⟨way, hway⟩ := exists_way hpart
      rw [List.mem_singleton.1 hb, hway, List.append_cons way]
      exact .below (List.append_ne_nil_of_right_ne_nil _ (List.cons_ne_nil _ _))

theorem sizeAll_append (as bs : List Expr) : sizeAll (as ++ bs) = sizeAll as + sizeAll bs := by
  induction as with
  | nil => rw [List.nil_append, sizeAll, Nat.zero_add]
  | cons e as ih => rw [List.cons_append, sizeAll, sizeAll, ih, Nat.add_assoc]

theorem sizeAll_toList (e : Option Expr) : sizeAll e.toList = sizeOption e := by
  cases e <;> simp [sizeAll, sizeOption]

theorem size_eq (e : Expr) : e.size = 1 + sizeAll e.children := by
  cases e <;> simp only [size, children, sizeAll, sizeAll_append, sizeAll_toList] <;> omega

end Expr

namespace Walk

/-! ### Moves -/

/-- A walk ends after some moves, having visited the given nodes at the given positions. -/
inductive Ends : ℕ → Walk → List (Position × Expr) → Prop
  | done {walk : Walk} (h : walk.step? = none) : Ends 0 walk []
  | visit {moves : ℕ} {walk next : Walk} {position : Position} {e : Expr} {visited : List (Position × Expr)}
      (h : walk.step? = some (some e, next)) (hposition : next.last = some position)
      (rest : Ends moves next visited) : Ends (moves + 1) walk ((position, e) :: visited)
  | pass {moves : ℕ} {walk next : Walk} {visited : List (Position × Expr)}
      (h : walk.step? = some (none, next)) (rest : Ends moves next visited) : Ends (moves + 1) walk visited

/-- With as many moves as it takes, all nodes are visited. -/
theorem Ends.visits {moves limit : ℕ} {walk : Walk} {visited : List (Position × Expr)}
    (h : Ends moves walk visited) (hle : moves ≤ limit) : walk.visits limit = visited.map Prod.snd := by
  induction h generalizing limit with
  | done h => cases limit <;> simp [Walk.visits, h]
  | visit h _ _ ih =>
    obtain ⟨limit, rfl⟩ := Nat.exists_eq_add_of_le' (Nat.le_of_add_left_le hle)
    rw [Walk.visits, h]
    exact congrArg _ (ih (by omega))
  | pass h _ ih =>
    obtain ⟨limit, rfl⟩ := Nat.exists_eq_add_of_le' (Nat.le_of_add_left_le hle)
    rw [Walk.visits, h]
    exact ih (by omega)

/-- The last visit, if there was one, was neither of the node at a position nor of a node below it. -/
def Outside (position : Position) (last : Option Position) : Prop :=
  ∀ place ∈ last, ¬ position <:+ place

/-- Parts next to each other with their positions, the first of which has the given number. -/
def placedFrom (position : Position) (first : ℕ) (parts : List Expr) : List (Position × Expr) :=
  (parts.zipIdx first).map fun part => (part.2 :: position, part.1)

/-- The position visited last after a walk of parts next to each other. -/
def lastOf (last : Option Position) (parts : List (Position × Expr)) : Option Position :=
  (parts.getLast?.map Prod.fst).or last

section

variable {position : Position} {e : Expr} {rest : List (Position × Expr)} {last : Option Position}

theorem placed_eq (position : Position) (e : Expr) : placed position e = placedFrom position 0 e.children :=
  rfl

/-- A node is visited if it has no parts, or if its last part has been visited just before. -/
theorem step?_visit (h : lastOf last (placed position e) = last) :
    step? ⟨(position, e) :: rest, last⟩ = some (some e, ⟨rest, some position⟩) := by
  have hready : ((placed position e).getLast?.all fun part => last == some part.1) = true := by
    unfold lastOf at h
    cases hlast : (placed position e).getLast? with
    | none => rfl
    | some part =>
      rw [hlast] at h
      rw [← h]
      exact beq_self_eq_true _
  unfold step?
  dsimp only
  rw [hready, if_pos rfl]

/-- The parts of a node go on the stack as long as the last visit was outside of it. -/
theorem step?_pass (hparts : e.children ≠ []) (h : Outside position last) :
    step? ⟨(position, e) :: rest, last⟩ =
      some (none, ⟨placed position e ++ (position, e) :: rest, last⟩) := by
  have hready : ((placed position e).getLast?.all fun part => last == some part.1) = false := by
    cases hlast : (placed position e).getLast? with
    | none =>
      rw [List.getLast?_eq_none_iff, placed_eq, placedFrom, List.map_eq_nil_iff] at hlast
      exact (hparts (List.zipIdx_eq_nil_iff.1 hlast)).elim
    | some part =>
      obtain ⟨⟨child, turn⟩, -, rfl⟩ := List.mem_map.1 (List.mem_of_getLast? hlast)
      refine Bool.eq_false_iff.2 fun hsame => ?_
      exact h _ (beq_iff_eq.1 hsame) (List.suffix_cons turn position)
  unfold step?
  dsimp only
  rw [hready, if_neg Bool.false_ne_true]

theorem placedFrom_cons (position : Position) (first : ℕ) (part : Expr) (parts : List Expr) :
    placedFrom position first (part :: parts) =
      (first :: position, part) :: placedFrom position (first + 1) parts := by
  rw [placedFrom, List.zipIdx_cons, List.map_cons]
  rfl

theorem lastOf_cons (last : Option Position) (part : Position × Expr) (parts : List (Position × Expr)) :
    lastOf last (part :: parts) = lastOf (some part.1) parts := by
  unfold lastOf
  rw [List.getLast?_cons]
  cases parts.getLast? <;> rfl

/-- Once the parts have been walked through, the last one has been visited last. -/
theorem lastOf_lastOf (last : Option Position) (parts : List (Position × Expr)) :
    lastOf (lastOf last parts) parts = lastOf last parts := by
  unfold lastOf
  cases parts.getLast? <;> rfl

/-- A part is outside of the part next to it. -/
theorem outside_next (position : Position) (turn : ℕ) :
    Outside ((turn + 1) :: position) (some (turn :: position)) := by
  intro place hplace hsuffix
  cases hplace
  have heq := hsuffix.eq_of_length rfl
  have := (List.cons.inj heq).1
  omega

theorem Outside.first (h : Outside position last) (turn : ℕ) : Outside (turn :: position) last :=
  fun place hplace hsuffix => h place hplace ((List.suffix_cons turn position).trans hsuffix)

end

/-- A walk that comes to a node from outside visits its nodes in post-order before it goes on. -/
def Covers (e : Expr) : Prop :=
  ∀ {position : Position} {rest : List (Position × Expr)} {last : Option Position} {moves : ℕ}
    {visited : List (Position × Expr)}, Outside position last → Ends moves ⟨rest, some position⟩ visited →
    ∃ more ≤ 2 * e.size, Ends (moves + more) ⟨(position, e) :: rest, last⟩ (e.listingFrom position ++ visited)

/-- Parts next to each other are walked through one after the other. -/
theorem ends_parts {parts : List Expr} (h : ∀ part ∈ parts, Covers part) {position : Position} {first : ℕ}
    {rest : List (Position × Expr)} {last : Option Position} {moves : ℕ} {visited : List (Position × Expr)}
    (hlast : Outside (first :: position) last)
    (hrest : Ends moves ⟨rest, lastOf last (placedFrom position first parts)⟩ visited) :
    ∃ more ≤ 2 * Expr.sizeAll parts, Ends (moves + more) ⟨placedFrom position first parts ++ rest, last⟩
      (Expr.listingOfParts position first parts ++ visited) := by
  induction parts generalizing first last with
  | nil => exact ⟨0, Nat.zero_le _, hrest⟩
  | cons part parts ih =>
    obtain ⟨hpart, hparts⟩ := List.forall_mem_cons.1 h
    rw [placedFrom_cons, lastOf_cons] at hrest
    obtain ⟨more, hmore, hnext⟩ := ih hparts (outside_next position first) hrest
    obtain ⟨more', hmore', hall⟩ := hpart hlast hnext
    refine ⟨more + more', by rw [Expr.sizeAll]; omega, ?_⟩
    rw [placedFrom_cons, Expr.listingOfParts_cons, List.append_assoc, ← Nat.add_assoc]
    exact hall

theorem covers (e : Expr) : Covers e := by
  induction e using Expr.induction_on_parts with
  | h e ih =>
    intro position rest last moves visited hlast hrest
    have hsize := e.size_eq
    rw [Expr.listingFrom_eq, List.append_assoc]
    by_cases hparts : e.children = []
    · have hvisit : lastOf last (placed position e) = last := by
        rw [placed_eq, hparts]
        rfl
      refine ⟨1, by omega, ?_⟩
      rw [hparts]
      exact .visit (step?_visit hvisit) rfl hrest
    · have hvisit : Ends (moves + 1) ⟨(position, e) :: rest, lastOf last (placed position e)⟩
          ((position, e) :: visited) := .visit (step?_visit (lastOf_lastOf last _)) rfl hrest
      obtain ⟨more, hmore, hwalk⟩ := ends_parts ih (hlast.first 0) hvisit
      refine ⟨more + 2, by omega, ?_⟩
      rw [show moves + (more + 2) = moves + 1 + more + 1 by omega]
      exact .pass (step?_pass hparts hlast) hwalk

/-- A walk from the root ends, after at most two moves for each node. -/
theorem ends_start (e : Expr) : ∃ moves ≤ 2 * e.size, Ends moves (start e) e.listing := by
  have hdone : Ends 0 ⟨[], some []⟩ [] := .done rfl
  have houtside : Outside [] none := fun _ hplace => nomatch hplace
  obtain ⟨moves, hmoves, hends⟩ := covers e houtside hdone
  rw [Nat.zero_add, List.append_nil] at hends
  exact ⟨moves, hmoves, hends⟩

end Walk

namespace Expr

theorem postOrder_eq (e : Expr) : e.postOrder = e.listing.map Prod.snd := by
  obtain ⟨moves, hmoves, hends⟩ := Walk.ends_start e
  exact hends.visits hmoves

/-- A walk from the root ends, after at most two moves for each node. It has then visited the nodes of the
expression and no others, each position once, in post-order. -/
theorem walk_postOrder (e : Expr) :
    (∃ moves ≤ 2 * e.size, Walk.Ends moves (Walk.start e) e.listing) ∧
      (∀ position node, (position, node) ∈ e.listing ↔ e.node? position = some node) ∧
      (e.listing.map Prod.fst).Nodup ∧ (e.listing.map Prod.fst).Pairwise Position.Before ∧
      e.postOrder = e.listing.map Prod.snd := by
  have hbefore : (e.listing.map Prod.fst).Pairwise Position.Before :=
    List.pairwise_map.2 (before_listingFrom e [])
  refine ⟨Walk.ends_start e, fun position node => ?_, hbefore.imp Position.Before.ne, hbefore, postOrder_eq e⟩
  rw [listing, mem_listingFrom]
  simp

/-! ### Searching the nodes -/

theorem any_listingOfParts {position : Position} {parts : List Expr} (h : ∀ part ∈ parts, ∀ place,
    (listingFrom place part).any (fun node => node.2.isCalculus) = part.hasCalculus) (first : ℕ) :
    (listingOfParts position first parts).any (fun node => node.2.isCalculus) = parts.any hasCalculus := by
  induction parts generalizing first with
  | nil => rfl
  | cons part parts ih =>
    obtain ⟨hpart, hparts⟩ := List.forall_mem_cons.1 h
    rw [listingOfParts_cons, List.any_append, hpart, ih hparts, List.any_cons]

theorem any_listingFrom (e : Expr) (position : Position) :
    (listingFrom position e).any (fun node => node.2.isCalculus) = e.hasCalculus := by
  induction e using induction_on_parts generalizing position with
  | h e ih =>
    rw [listingFrom_eq, List.any_append, any_listingOfParts ih, hasCalculus_eq]
    simp

/-- Calculus is found by a walk. -/
theorem hasCalculus_eq_any (e : Expr) : e.hasCalculus = e.postOrder.any isCalculus := by
  rw [postOrder_eq, List.any_map]
  exact (any_listingFrom e []).symm

end Expr

end Workings
