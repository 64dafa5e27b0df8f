import Workings.Proofs.LongProducts
import Workings.Proofs.Products

/-!
# What work makes of the tree

On a strict sheet every change has to find its part. `Work.Turns o before w a after` says that the work `w`,
begun on a strict sheet with the options `o` and the tree `before`, gives the result `a` and leaves the
tree `after`, or that it ends in a fault if `after` is no tree; `Work.Stays o w` says of work that only
writes remarks that it leaves the tree as it is. On the way nothing is reported, and a block that holds the
tree follows it (`Sheet.LeadsTo`). The lemmas of this file carry the trees of a long
multiplication through the functions that make its changes.
-/

namespace Workings

/-- A strict sheet with the given options and tree. -/
structure Sheet.Stands (o : Options) (tree : Expr) (s : Sheet) : Prop where
  options : s.options = o
  strict : s.strict = true
  tree : s.tree = tree

/-- From one sheet to the other nothing was reported, and a block that holds the tree followed it. -/
structure Sheet.LeadsTo (s t : Sheet) : Prop where
  status : t.status = s.status
  block : ∀ id, s.block id = [s.tree] → t.block id = [t.tree]

namespace Sheet.LeadsTo

variable {s t u : Sheet}

theorem refl (s : Sheet) : s.LeadsTo s :=
  ⟨rfl, fun _ h => h⟩

theorem trans (h : s.LeadsTo t) (h' : t.LeadsTo u) : s.LeadsTo u :=
  ⟨h'.status.trans h.status, fun id hid => h'.block id (h.block id hid)⟩

theorem accept (s : Sheet) (c : Change) : s.LeadsTo ((s.flag c.approximate).accept c) := by
  refine ⟨rfl, fun id hid => ?_⟩
  rw [block_accept, show (s.flag c.approximate).block id = [s.tree] from hid]
  rfl

/-- Opening a block and closing it leaves the blocks that were open before. -/
theorem close {trees : List Expr} (h : Sheet.LeadsTo { s with blocks := s.blocks ++ [trees] } t) :
    s.LeadsTo { t with blocks := t.blocks.take s.blocks.length } := by
  refine ⟨h.status, fun id hid => ?_⟩
  have hlt : id < s.blocks.length := by
    by_contra hnot
    rw [Sheet.block, List.getD_eq_default _ _ (not_lt.1 hnot)] at hid
    cases hid
  have hopened : Sheet.block { s with blocks := s.blocks ++ [trees] } id = [s.tree] := by
    rw [← hid]
    exact List.getD_append _ _ _ _ hlt
  rw [← h.block id hopened]
  unfold Sheet.block
  rw [List.getD_eq_getElem?_getD, List.getD_eq_getElem?_getD, List.getElem?_take_of_lt hlt]

end Sheet.LeadsTo

namespace Work

variable {α β : Type} {o : Options} {before between tree : Expr} {after : Option Expr}

/-- An outcome on a strict sheet: a result and a tree, or a fault. -/
inductive Left (o : Options) (s : Sheet) (a : α) : Option Expr → Except Fault α × Sheet → Prop
  | ok {t : Sheet} {tree : Expr} (stands : t.Stands o tree) (leads : s.LeadsTo t) :
    Left o s a (some tree) (.ok a, t)
  | fault {fault : Fault} {t : Sheet} : Left o s a none (.error fault, t)

theorem Left.trans {s t : Sheet} {a : α} {outcome : Except Fault α × Sheet} (h : s.LeadsTo t)
    (hleft : Left o t a after outcome) : Left o s a after outcome := by
  cases hleft with
  | ok stands leads => exact .ok stands (h.trans leads)
  | fault => exact .fault

/-- On strict sheets the work gives a result, and the tree becomes another one, or the work ends in a
fault. -/
structure Turns (o : Options) (before : Expr) (w : Work α) (a : α) (after : Option Expr) : Prop where
  run : ∀ s : Sheet, s.Stands o before → Left o s a after (exec w s)

/-- On strict sheets the work gives a result, and the tree stays as it is. -/
structure Stays (o : Options) (w : Work α) : Prop where
  run : ∀ (tree : Expr) (s : Sheet), s.Stands o tree →
    ∃ a t, exec w s = (.ok a, t) ∧ t.Stands o tree ∧ s.LeadsTo t

/-! ### Putting work together -/

namespace Turns

variable {w : Work α} {a : α} {b : β} {f : α → Work β}

theorem pure (a : α) : Turns o tree (Pure.pure a) a tree :=
  ⟨fun s hs => .ok hs (.refl s)⟩

theorem bind (hw : Turns o before w a between) (hf : Turns o between (f a) b after) :
    Turns o before (w >>= f) b after := by
  refine ⟨fun s hs => ?_⟩
  rcases hexec : exec w s with ⟨result, t⟩
  have hrun := hexec ▸ hw.run s hs
  cases hrun with
  | ok stands leads =>
    rw [exec_bind_ok hexec]
    exact (hf.run t stands).trans leads

/-- A fault ends the work. -/
theorem halt (hw : Turns o before w a none) (b : β) : Turns o before (w >>= f) b none := by
  refine ⟨fun s hs => ?_⟩
  rcases hexec : exec w s with ⟨result, t⟩
  have hrun := hexec ▸ hw.run s hs
  cases hrun with
  | fault =>
    rw [exec_bind_error hexec]
    exact .fault

/-- Work that leaves the tree as it is may come last. -/
theorem follow (hw : Turns o before w a after) (hf : ∀ tree, Turns o tree (f a) b tree) :
    Turns o before (w >>= f) b after := by
  cases after with
  | none => exact hw.halt b
  | some tree => exact hw.bind (hf tree)

theorem exists_run {tree : Expr} {s : Sheet} (hw : Turns o before w a tree) (hs : s.Stands o before) :
    ∃ t, exec w s = (.ok a, t) ∧ t.Stands o tree ∧ s.LeadsTo t := by
  have hrun := hw.run s hs
  generalize exec w s = outcome at hrun
  cases hrun with
  | ok stands leads => exact ⟨_, rfl, stands, leads⟩

theorem ite {c : Prop} [Decidable c] {v : Work α} (hw : c → Turns o before w a after)
    (hv : ¬ c → Turns o before v a after) : Turns o before (if c then w else v) a after := by
  split
  · exact hw ‹_›
  · exact hv ‹_›

end Turns

namespace Stays

variable {w : Work α} {f : α → Work β} {b : β}

/-- Work that keeps the tree may come first. -/
theorem turns (hw : Stays o w) (hf : ∀ a, Turns o before (f a) b after) :
    Turns o before (w >>= f) b after := by
  refine ⟨fun s hs => ?_⟩
  obtain ⟨a, t, hexec, ht, hleads⟩ := hw.run before s hs
  rw [exec_bind_ok hexec]
  exact ((hf a).run t ht).trans hleads

theorem pure (a : α) : Stays o (Pure.pure a) :=
  ⟨fun _ s hs => ⟨a, s, rfl, hs, .refl s⟩⟩

theorem bind (hw : Stays o w) (hf : ∀ a, Stays o (f a)) : Stays o (w >>= f) := by
  refine ⟨fun tree s hs => ?_⟩
  obtain ⟨a, t, hexec, ht, hleads⟩ := hw.run tree s hs
  obtain ⟨b, u, hexec', hu, hleads'⟩ := (hf a).run tree t ht
  exact ⟨b, u, (exec_bind_ok hexec).trans hexec', hu, hleads.trans hleads'⟩

theorem ite {c : Prop} [Decidable c] {v : Work α} (hw : Stays o w) (hv : Stays o v) :
    Stays o (if c then w else v) := by
  split
  · exact hw
  · exact hv

theorem look {f : Sheet → Work α} (h : ∀ s, Stays o (f s)) : Stays o (get >>= f) :=
  ⟨fun tree s hs => (h s).run tree s hs⟩

theorem forM {γ : Type} {f : γ → Work PUnit} (h : ∀ item, Stays o (f item)) (items : List γ) :
    Stays o (items.forM f) := by
  induction items with
  | nil => exact .pure _
  | cons item items ih => exact (h item).bind fun _ => ih

end Stays

/-- A remark that is written under a condition does not matter for the tree. -/
theorem Turns.iteBind {c : Prop} [Decidable c] {w : Work Unit} {f : Unit → Work α} {a : α}
    (hw : Stays o w) (hf : ∀ u, Turns o before (f u) a after) :
    Turns o before (if c then w >>= f else f ()) a after :=
  .ite (fun _ => hw.turns hf) fun _ => hf ()

theorem turns_options : Turns o tree options o tree := by
  refine ⟨fun s hs => ?_⟩
  obtain rfl := hs.options
  exact .ok hs (.refl s)

theorem stays_options : Stays o options :=
  ⟨fun _ s hs => ⟨_, s, rfl, hs, .refl s⟩⟩

theorem stays_remark (text : String) (pause : Bool) : Stays o (modify (·.remark text pause)) := by
  refine ⟨fun tree s hs => ?_⟩
  rw [exec_modify, Sheet.remark_eq]
  exact ⟨_, _, rfl, ⟨hs.options, hs.strict, hs.tree⟩, rfl, fun _ hid => hid⟩

theorem stays_ask (question : Asking α) : Stays o (ask question) :=
  ⟨fun _ _ hs => ⟨_, _, rfl, ⟨hs.options, hs.strict, hs.tree⟩, rfl, fun _ hid => hid⟩⟩

theorem stays_wording (key verbose concise : String) (payload : Payload) :
    Stays o (wording key verbose concise payload) :=
  .look fun _ => stays_ask _

/-- Asking for a message and writing it down. -/
theorem stays_remarkOn (key verbose concise : String) (payload : Payload) :
    Stays o (do remark (← wording key verbose concise payload)) :=
  (stays_wording ..).bind fun text => stays_remark text false

/-- A change whose part occurs in the tree. -/
theorem turns_changeWith {part result : Expr} (h : before.Rewrites part result tree)
    (explanation : Option String) (approximate : Bool) :
    Turns o before (changeWith ⟨part, result, explanation, approximate⟩) () tree := by
  refine ⟨fun s hs => ?_⟩
  obtain ⟨hoptions, hstrict, rfl⟩ := hs
  rw [exec_changeWith, if_pos h.occurs]
  exact .ok ⟨hoptions, hstrict, h.replaced⟩ (.accept s _)

/-- A change whose part does not occur in the tree. -/
theorem turns_changeWith_none {part : Expr} (h : before.has part = false) (result : Expr)
    (explanation : Option String) (approximate : Bool) :
    Turns o before (changeWith ⟨part, result, explanation, approximate⟩) () none := by
  refine ⟨fun s hs => ?_⟩
  obtain ⟨hoptions, hstrict, rfl⟩ := hs
  rw [exec_changeWith, if_neg (by rw [h]; exact Bool.false_ne_true), if_pos hstrict]
  exact .fault

end Work

open Work (Turns Stays turns_options stays_options stays_remark stays_wording stays_remarkOn
  turns_changeWith turns_changeWith_none)

section

variable {o : Options} {before after tree : Expr}

/-! ### Remarks -/

theorem stays_remarkOnColumn (column : Column) : Stays o (remarkOnColumn column) := by
  unfold remarkOnColumn
  refine .ite ?_ (.pure ())
  extract_lets sum digit addition finish
  have hfinish : ∀ suffix, Stays o (finish suffix) := fun suffix =>
    stays_options.bind fun options => .ite (stays_remark _ false) (.pure ())
  refine .ite ?_ (.ite ?_ ?_)
  · exact (stays_wording ..).bind hfinish
  · exact (stays_wording ..).bind hfinish
  · exact hfinish ""

theorem stays_remarkOnCarry (left : Nat) (carry : Int) : Stays o (remarkOnCarry left carry) := by
  unfold remarkOnCarry
  exact stays_options.bind fun options => .ite (stays_remarkOn ..) (.pure ())

theorem stays_calculatorMessage (operation : Operation) (expression result : Expr)
    (operands : List Number) : Stays o (calculatorMessage operation expression result operands) :=
  .look fun _ => .ite (Work.stays_ask _) (.pure _)

/-! ### Adding up -/

theorem Number.Whole.eq_int {n : Number} (hn : n.Whole) {c : Int64} (h : n.toInt = c.toInt) :
    n = .int c := by
  obtain ⟨k, rfl⟩ := hn.exists_int
  exact congrArg Number.int (Int64.toInt_inj.1 h)

/-- Adding in columns puts the total of the columns in the place of the components, and the sum of the
components if there is no total. -/
theorem turns_addComponents_total {components : List Number} {result : Number}
    (hresult : (ColumnSum.of components).total?.elim (components.foldl (· + ·) 0)
      (ColumnSum.unscale · (ColumnSum.of components).right) = result)
    (hrewrites : before.Rewrites (sumOfNumbers components) (.num result) after) :
    Turns o before (addComponents components) result after := by
  unfold addComponents
  extract_lets columns sum
  have hsum : sum = result := by
    rw [← hresult]
    unfold sum
    cases columns.total? <;> rfl
  rw [← hsum] at hrewrites ⊢
  refine turns_options.bind (.iteBind (stays_remark _ false) fun _ => ?_)
  refine (Stays.forM stays_remarkOnColumn _).turns fun _ => (stays_remarkOnCarry ..).turns fun _ => ?_
  refine (stays_wording ..).turns fun text => (stays_remark text false).turns fun _ => ?_
  exact (turns_changeWith hrewrites none false).bind (.pure sum)

/-- Adding whole numbers in columns puts their sum in the place of the components. -/
theorem turns_addComponents {components : List Number} {c : Int64} (hne : components ≠ [])
    (h : ∀ n ∈ components, n.Whole) (hc : c.toInt = (components.map Number.toInt).sum)
    (hrewrites : before.Rewrites (sumOfNumbers components) (.int c) after) :
    Turns o before (addComponents components) (.int c) after := by
  refine turns_addComponents_total ?_ hrewrites
  rw [ColumnSum.total?_of_whole hne h (hc ▸ inRange_toInt c), ColumnSum.right_of_whole h]
  exact ofInt_eq_of_toInt hc

/-! ### Multiplying -/

variable {m n c : Int64}

/-- Multiplying by components makes the changes of a long multiplication. -/
theorem turns_multiplyComponents (hproduct : IsProduct (.int m) (.int n) c)
    (hbound : (Number.int m).size * (Number.int n).size < 2 ^ 63)
    (h : Expr.Multiplies m n c before after) :
    Turns o before (multiplyComponents m n (.int m) (.int n)) (.int c) after := by
  obtain @⟨split, multiplied, hsplit, hmultiplied, hadded⟩ := h
  obtain ⟨hmne, -⟩ := hproduct.left.sum_components
  obtain ⟨hnne, -⟩ := hproduct.right.sum_components
  obtain ⟨hproducts, hsum, -⟩ := partialProducts_whole hproduct.left hproduct.right hbound
  unfold multiplyComponents
  refine turns_options.bind ?_
  extract_lets exact as bs products factored done add table
  have hexact : exact = .int c := ofInt_eq_of_toInt hproduct.value
  have hdone : ∀ u tree, Turns o tree (done u) (.int c) tree := fun u tree => hexact ▸ .pure exact
  have hadd : ∀ u, Turns o multiplied (add u) (.int c) after := by
    intro u
    have hwhole : ∀ x ∈ products, x.Whole := by
      intro x hx
      obtain ⟨-, -, -, -, hx, -⟩ := hproducts x hx
      exact hx
    refine (turns_addComponents (partialProducts_ne_nil hmne hnne) hwhole
      (hproduct.value.trans hsum.symm) hadded).bind (.ite (fun hdiffer => ?_) fun _ => hdone () after)
    rw [hexact, show (Number.int c == Number.int c) = true from beq_self_eq_true c] at hdiffer
    cases hdiffer
  have htable : ∀ u, Turns o split (table u) (.int c) after := by
    intro u
    refine (turns_changeWith hmultiplied none false).bind (.ite (fun _ => ?_) fun _ => ?_)
    · refine .ite (fun _ => ?_) fun _ => hadd ()
      exact (stays_wording ..).turns fun text => (stays_remark text false).turns hadd
    · rw [Expr.int, ← hexact] at hadded
      exact (turns_changeWith hadded none false).bind (hdone () after)
  refine (turns_changeWith hsplit none false).bind (.ite (fun _ => ?_) fun _ => htable ())
  refine (stays_wording ..).turns fun text => (stays_remark text false).turns fun _ => ?_
  exact (stays_remark _ false).turns htable

/-- Multiplying by components begins with a change. -/
theorem turns_multiplyComponents_none (h : before.has (Expr.wordProduct m n) = false) (a : Number) :
    Turns o before (multiplyComponents m n (.int m) (.int n)) a none := by
  unfold multiplyComponents
  exact turns_options.bind ((turns_changeWith_none h _ none false).halt a)

/-- Scaling back puts the scaled number in the place of the product with a power of ten. -/
theorem turns_scaleBack {exact value : Number} {exponent : Int} (h : 0 ≤ exponent)
    (hvalue : exact * powerOfTen exponent = value) (hfinite : value.isFinite = true)
    (hrewrites : before.Rewrites (.prod [.num exact, Expr.tenTo (Int64.ofInt exponent)]) (.num value)
      after) :
    Turns o before (scaleBack exact exponent) (.num value) after := by
  unfold scaleBack
  extract_lets scaled result
  have hresult : result = value := (if_pos h).trans hvalue
  rw [hresult, if_pos hfinite]
  exact (turns_changeWith hrewrites none false).bind (.pure _)

/-- Only a decimal is rounded. -/
theorem turns_approximateFactor (name : FactorName) (record : Bool) {x : Number} (hx : x.Whole) :
    Turns o tree (approximateFactor name record x) x tree := by
  obtain ⟨k, hexponent, -⟩ := hx.scale_eq
  unfold approximateFactor
  refine turns_options.bind ?_
  dsimp only
  rw [hexponent]
  refine .ite (fun _ => .pure x) fun hnot => ?_
  simp at hnot

theorem stays_remarkOnShift (name : FactorName) (x : Number) (exponent : Int) :
    Stays o (remarkOnShift name x exponent) :=
  stays_remarkOn ..

variable {a b : Int64}

/-- How the tree changes while the product of two words is worked out beside a power of ten and scaled
back. There is no tree if the product does not occur. -/
inductive ScalesBack (m n d c : Int64) (k : Int) (before : Expr) : Option Expr → Prop
  | found {multiplied after : Expr} : Expr.Multiplies m n d before multiplied →
      multiplied.Rewrites (.prod [.int d, Expr.tenTo (Int64.ofInt k)]) (.int c) after →
      ScalesBack m n d c k before after
  | missing : before.has (Expr.wordProduct m n) = false → ScalesBack m n d c k before none

/-- How the tree changes while two words are multiplied at length: as they stand if they have no trailing
zeros, and otherwise without their zeros, beside a power of ten that the product is scaled back by. -/
inductive AtLength (a b c : Int64) (before : Expr) : Option Expr → Prop
  | unscaled {after : Expr} : (Number.int a).scale = (.int a, 0) → (Number.int b).scale = (.int b, 0) →
      Expr.Multiplies a b c before after → AtLength a b c before after
  | scaled {m n d : Int64} {i j : Nat} {split : Expr} {after : Option Expr} :
      (Number.int a).scale = (.int m, (i : Int)) → (Number.int b).scale = (.int n, (j : Int)) →
      a ≠ m ∨ b ≠ n → IsProduct (.int m) (.int n) d →
      before.Rewrites (Expr.wordProduct a b)
        (.prod [.int m, .int n, Expr.tenTo (Int64.ofInt (i + j))]) split →
      ScalesBack m n d c (i + j) split after → AtLength a b c before after

theorem Number.Whole.size_scale_le {x : Number} (hx : x.Whole) : x.scale.1.size ≤ x.size := by
  obtain ⟨k, -, -, -, hsize⟩ := hx.scale_eq
  rw [Number.size, Number.size, ← hsize]
  exact Nat.le_mul_of_pos_right _ (Nat.pow_pos (by decide))

theorem turns_multiplyAtLength (hproduct : IsProduct (.int a) (.int b) c)
    (hbound : (Number.int a).size * (Number.int b).size < 2 ^ 63) {after : Option Expr}
    (h : AtLength a b c before after) :
    Turns o before (multiplyAtLength (.int a) (.int b)) (.int c) after := by
  unfold multiplyAtLength
  refine turns_options.bind ?_
  extract_lets finish work
  have hfinish : ∀ result tree, Turns o tree (finish result) result tree := fun result tree =>
    (stays_remark "" true).turns fun _ => .pure result
  have hwork : ∀ u, Turns o before (work u) (.int c) after := by
    intro u
    refine (turns_approximateFactor .left true hproduct.left).bind ?_
    refine (turns_approximateFactor .right _ hproduct.right).bind ?_
    cases h with
    | unscaled ha hb hmultiplied =>
      rw [ha, hb]
      dsimp only [Number.toWord?, Number.normalize]
      refine .iteBind (stays_remarkOnShift ..) fun _ => .iteBind (stays_remarkOnShift ..) fun _ => ?_
      rw [hproduct.left.beq_self, hproduct.right.beq_self]
      exact (turns_multiplyComponents hproduct hbound hmultiplied).bind (hfinish _ _)
    | @scaled m n d i j split after ha hb hzeros hcoefficients hsplit hback =>
      have hscaled := (hproduct.scaledBack (m := m) (n := n) (by rw [ha]; rfl) (by rw [hb]; rfl)).2
      have hexact : Number.ofInt (m.toInt * n.toInt) = .int d :=
        ofInt_eq_of_toInt hcoefficients.value
      rw [hexact, ha, hb] at hscaled
      have hsizes : (Number.int m).size * (Number.int n).size < 2 ^ 63 := by
        refine lt_of_le_of_lt (Nat.mul_le_mul ?_ ?_) hbound
        · simpa [ha] using hproduct.left.size_scale_le
        · simpa [hb] using hproduct.right.size_scale_le
      rw [ha, hb]
      dsimp only [Number.toWord?, Number.normalize]
      refine .iteBind (stays_remarkOnShift ..) fun _ => .iteBind (stays_remarkOnShift ..) fun _ => ?_
      have hdiffer : (!(Number.int a == Number.int m) || !(Number.int b == Number.int n)) = true := by
        show (!(a == m) || !(b == n)) = true
        simpa [or_iff_not_imp_left] using hzeros
      simp only [if_pos hdiffer]
      refine (turns_changeWith hsplit none false).bind ?_
      cases hback with
      | found hmultiplied hafter =>
        refine (turns_multiplyComponents hcoefficients hsizes hmultiplied).bind ?_
        exact (turns_scaleBack (by omega) hscaled rfl hafter).bind (hfinish _ _)
      | missing hnot => exact (turns_multiplyComponents_none hnot (.int d)).halt _
  refine .ite (fun _ => ?_) fun _ => hwork ()
  exact (stays_wording ..).turns fun text => (stays_remark text false).turns hwork

end

end Workings
