import Workings.Proofs.Reduction
import Workings.Proofs.Run

/-!
# Work that reduces its sheet

`Work.Meets p s w post` says what the work `w` does to the sheet `s`, however it ends: the tree and the
trees of the open blocks make the progress `p` (for most of the work, they are reduced), a result of the
work satisfies `post`, and no depth is exhausted. There is a rule for every operation on sheets, so that
a function is dealt with by following its definition.

`Work.Reaches total p s w post` says the same of work that is limited by a depth, for a depth that is
large enough. Unless it is `total` it may exhaust its depth, so that it also speaks of work at one depth.
-/

namespace Workings

open Workings.Expr (Everywhere Plain)

/-- Options under which numbers are worked out and not rounded, estimated or split. A power of ten that a
long multiplication has left in the tree is kept or worked out, and not taken for infinite or for zero. A
factor close to a power of ten is not split from it: the difference of the two that takes its place has a
negative number in it and is larger than the factor, so that the tree would not stay plain and might outgrow
the words. -/
structure Options.Exact (options : Options) : Prop where
  minValue : options.minValue ≤ 1
  clampLiterals : options.clampLiterals = false
  magnitudeThreshold : options.magnitudeThreshold = none
  roundAndAdjust : options.roundAndAdjust = false
  powers : options.overflow = .symbolic ∨ ∀ k : Int64, 1 ≤ k.toInt → k.toInt ≤ 18 →
    Simplify.isBeyondLimit options 10 (.int k) = false

/-- A kind of progress that a tree can make. -/
structure Progress where
  rel : Expr → Expr → Prop
  refl : ∀ a, rel a a
  trans : ∀ {a b c}, rel a b → rel b c → rel a c

/-- A plain tree is reduced. -/
def Progress.reduction : Progress where
  rel a b := a.Everywhere Plain → a.Reduces b
  refl _ := .refl
  trans hab hbc ha := (hab ha).trans (hbc (hab ha).plain)

namespace Sheet

/-- A sheet under such options on which no symbol is bound. -/
structure Ready (s : Sheet) : Prop where
  options : s.options.Exact
  values : s.bindings.values = []

/-- What is on a sheet has made progress. -/
structure Follows (p : Progress) (s t : Sheet) : Prop where
  options : t.options = s.options
  bindings : t.bindings = s.bindings
  tree : p.rel s.tree t.tree
  blocks : List.Forall₂ (List.Forall₂ p.rel) s.blocks t.blocks

variable {p : Progress} {s t u : Sheet}

theorem forall₂_trans {α : Type} {r : α → α → Prop} (htrans : ∀ a b c, r a b → r b c → r a c)
    {as bs cs : List α} (hab : List.Forall₂ r as bs) (hbc : List.Forall₂ r bs cs) :
    List.Forall₂ r as cs := by
  induction hab generalizing cs with
  | nil => exact hbc
  | cons h _ ih =>
    cases hbc with
    | cons h' hrest => exact .cons (htrans _ _ _ h h') (ih hrest)

namespace Follows

theorem of_same (hoptions : t.options = s.options) (hbindings : t.bindings = s.bindings)
    (htree : t.tree = s.tree) (hblocks : t.blocks = s.blocks) : s.Follows p t where
  options := hoptions
  bindings := hbindings
  tree := htree ▸ p.refl s.tree
  blocks := by
    rw [hblocks]
    exact List.forall₂_same.2 fun trees _ => List.forall₂_same.2 fun tree _ => p.refl tree

theorem refl (s : Sheet) : s.Follows p s :=
  of_same rfl rfl rfl rfl

theorem trans (hst : s.Follows p t) (htu : t.Follows p u) : s.Follows p u where
  options := htu.options.trans hst.options
  bindings := htu.bindings.trans hst.bindings
  tree := p.trans hst.tree htu.tree
  blocks := by
    have htrans : ∀ as bs cs, List.Forall₂ p.rel as bs → List.Forall₂ p.rel bs cs →
        List.Forall₂ p.rel as cs := fun _ _ _ => forall₂_trans (r := p.rel) fun _ _ _ => p.trans
    exact forall₂_trans htrans hst.blocks htu.blocks

/-- Progress of one kind is progress of another kind. -/
theorem weaken {q : Progress} (hpq : ∀ a b, q.rel a b → p.rel a b) (h : s.Follows q t) :
    s.Follows p t :=
  ⟨h.options, h.bindings, hpq _ _ h.tree, h.blocks.imp fun _ _ hblock => hblock.imp hpq⟩

theorem ready (h : s.Follows p t) (hs : s.Ready) : t.Ready where
  options := h.options ▸ hs.options
  values := h.bindings ▸ hs.values

theorem block (h : s.Follows p t) (id : Nat) : List.Forall₂ p.rel (s.block id) (t.block id) := by
  have getD {as bs : List (List Expr)} (hab : List.Forall₂ (List.Forall₂ p.rel) as bs) (id : Nat) :
      List.Forall₂ p.rel (as.getD id []) (bs.getD id []) := by
    induction hab generalizing id with
    | nil => exact .nil
    | cons hhead _ ih =>
      cases id with
      | zero => exact hhead
      | succ id => exact ih id
  exact getD h.blocks id

/-- Closing a block that was opened leaves the progress of the others. -/
theorem close {trees : List Expr} (h : Follows p { s with blocks := s.blocks ++ [trees] } t) :
    s.Follows p { t with blocks := t.blocks.take s.blocks.length } where
  options := h.options
  bindings := h.bindings
  tree := h.tree
  blocks := by
    have hprefix := List.forall₂_take s.blocks.length h.blocks
    rw [List.take_left] at hprefix
    exact hprefix

/-- A change that is progress everywhere is progress on the sheet. -/
theorem accept {c : Change} (hc : ∀ tree : Expr, p.rel tree (tree.replace c.part c.result)) :
    s.Follows p (s.accept c) where
  options := rfl
  bindings := rfl
  tree := hc s.tree
  blocks := by
    have each (trees : List Expr) :
        List.Forall₂ p.rel trees (trees.map (·.replace c.part c.result)) := by
      induction trees with
      | nil => exact .nil
      | cons tree trees ih => exact .cons (hc tree) ih
    show List.Forall₂ _ s.blocks (s.blocks.map fun trees => trees.map (·.replace c.part c.result))
    induction s.blocks with
    | nil => exact .nil
    | cons trees blocks ih => exact .cons (each trees) ih

end Follows

end Sheet

namespace Work

variable {α β : Type} {p : Progress} {s : Sheet}

/-- What is known of an outcome: the work has made progress, its result satisfies `post`, and, if all of
it is `total`, the depth was not exhausted. -/
structure Sound (total : Prop) (p : Progress) (s : Sheet) (post : α → Prop)
    (outcome : Except Fault α × Sheet) : Prop where
  follows : s.Follows p outcome.2
  result : ∀ a, outcome.1 = .ok a → post a
  ends : total → outcome.1 ≠ .error .exhausted

namespace Sound

variable {total : Prop} {t : Sheet} {post : α → Prop} {outcome : Except Fault α × Sheet}

theorem ok {a : α} (hst : s.Follows p t) (ha : post a) :
    Sound total p s post ((.ok a, t) : Except Fault α × Sheet) :=
  ⟨hst, fun _ h => by cases h; exact ha, fun _ => nofun⟩

theorem error {fault : Fault} (hst : s.Follows p t) (hfault : total → fault ≠ .exhausted) :
    Sound total p s post ((.error fault, t) : Except Fault α × Sheet) :=
  ⟨hst, nofun, fun htotal h => hfault htotal (Except.error.inj h)⟩

/-- Progress that was made before. -/
theorem after (hst : s.Follows p t) (h : Sound total p t post outcome) :
    Sound total p s post outcome :=
  ⟨hst.trans h.follows, h.result, h.ends⟩

theorem mono {post' : α → Prop} (h : Sound total p s post outcome) (hpost : ∀ a, post a → post' a) :
    Sound total p s post' outcome :=
  ⟨h.follows, fun a ha => hpost a (h.result a ha), h.ends⟩

theorem weaken {q : Progress} (hpq : ∀ a b, q.rel a b → p.rel a b)
    (h : Sound total q s post outcome) : Sound total p s post outcome :=
  ⟨h.follows.weaken hpq, h.result, h.ends⟩

/-- A block that was opened for the work is closed. -/
theorem close {trees : List Expr}
    (h : Sound total p { s with blocks := s.blocks ++ [trees] } post outcome) :
    Sound total p s post
      (outcome.1, { outcome.2 with blocks := outcome.2.blocks.take s.blocks.length }) :=
  ⟨h.follows.close, h.result, h.ends⟩

end Sound

/-- On a ready sheet the work makes progress, its result satisfies `post`, and it does not exhaust a
depth. -/
structure Meets (p : Progress) (s : Sheet) (w : Work α) (post : α → Prop) : Prop where
  run : s.Ready → Sound True p s post (exec w s)

namespace Meets

variable {w : Work α} {post : α → Prop}

theorem mono {post' : α → Prop} (h : Meets p s w post) (hpost : ∀ a, post a → post' a) :
    Meets p s w post' :=
  ⟨fun hs => (h.run hs).mono hpost⟩

theorem weaken {q : Progress} (hpq : ∀ a b, q.rel a b → p.rel a b) (h : Meets q s w post) :
    Meets p s w post :=
  ⟨fun hs => (h.run hs).weaken hpq⟩

theorem pure {a : α} (h : post a) : Meets p s (Pure.pure a) post :=
  ⟨fun _ => .ok (.refl s) h⟩

theorem throw {fault : Fault} (h : fault ≠ .exhausted) : Meets p s (throw fault : Work α) post :=
  ⟨fun _ => .error (.refl s) fun _ => h⟩

theorem bind {f : α → Work β} {post' : β → Prop} (hw : Meets p s w post)
    (hf : ∀ a t, s.Follows p t → post a → Meets p t (f a) post') : Meets p s (w >>= f) post' := by
  refine ⟨fun hs => ?_⟩
  have hsound := hw.run hs
  rcases h : exec w s with ⟨fault | a, t⟩
  · rw [exec_bind_error h]
    rw [h] at hsound
    exact .error hsound.follows fun htotal heq => hsound.ends htotal (congrArg Except.error heq)
  · rw [exec_bind_ok h]
    rw [h] at hsound
    exact ((hf a t hsound.follows (hsound.result a rfl)).run (hsound.follows.ready hs)).after
      hsound.follows

theorem ite {c : Prop} [Decidable c] {v : Work α} (hw : c → Meets p s w post)
    (hv : ¬ c → Meets p s v post) : Meets p s (if c then w else v) post := by
  split
  · exact hw ‹_›
  · exact hv ‹_›

/-- Work that is done under a condition before what follows. -/
theorem iteBind {c : Prop} [Decidable c] {w : Work Unit} {f : Unit → Work α}
    (hw : c → Meets p s w fun _ => True)
    (hf : ∀ u t, s.Follows p t → Meets p t (f u) post) :
    Meets p s (if c then w >>= f else f ()) post :=
  .ite (fun hc => (hw hc).bind fun u t hfollows _ => hf u t hfollows) fun _ => hf () s (.refl s)

theorem forM {γ : Type} {f : γ → Work PUnit} {items : List γ}
    (h : ∀ item ∈ items, ∀ t : Sheet, Meets p t (f item) fun _ => True) :
    Meets p s (items.forM f) fun _ => True := by
  induction items generalizing s with
  | nil => exact .pure trivial
  | cons item items ih =>
    refine .bind (h item (by simp) s) fun _ t _ _ => ?_
    exact ih fun item hitem => h item (by simp [hitem])

theorem look {f : Sheet → Work α} (h : s.Ready → Meets p s (f s) post) :
    Meets p s (get >>= f) post :=
  ⟨fun hs => (h hs).run hs⟩

/-- Writing on a sheet that leaves its tree, its blocks and what they are worked out under. -/
theorem modify {f : Sheet → Sheet} {post : Unit → Prop} (hoptions : ∀ s, (f s).options = s.options)
    (hbindings : ∀ s, (f s).bindings = s.bindings) (htree : ∀ s, (f s).tree = s.tree)
    (hblocks : ∀ s, (f s).blocks = s.blocks) (hpost : post ()) :
    Meets p s (MonadState.modifyGet fun s => ((), f s)) post :=
  ⟨fun _ => .ok (.of_same (hoptions s) (hbindings s) (htree s) (hblocks s)) hpost⟩

end Meets

theorem meets_remark (text : String) (pause : Bool) :
    Meets p s (modify (·.remark text pause)) fun _ => True := by
  refine .modify (fun s => ?_) (fun s => ?_) (fun s => ?_) (fun s => ?_) trivial <;>
    rw [Sheet.remark_eq]

theorem meets_report (status : Status) (reason : String) :
    Meets p s (modify (·.report status reason)) fun _ => True := by
  refine .modify (fun s => ?_) (fun s => ?_) (fun s => ?_) (fun s => ?_) trivial <;>
    rw [Sheet.report_eq]

theorem meets_ask (question : Asking α) : Meets p s (ask question) fun _ => True :=
  ⟨fun _ => .ok (.of_same rfl rfl rfl rfl) trivial⟩

theorem meets_written (e : Expr) : Meets p s (written e) fun _ => True :=
  ⟨fun _ => .ok (.refl s) trivial⟩

theorem meets_options : Meets p s options fun options => options = s.options ∧ options.Exact :=
  ⟨fun hs => .ok (.refl s) ⟨rfl, hs.options⟩⟩

theorem meets_wording (key verbose concise : String) (payload : Payload) :
    Meets p s (wording key verbose concise payload) fun _ => True :=
  .look fun _ => meets_ask _

theorem meets_withBlock {trees : List Expr} {work : Nat → Work α} {post : α → Prop}
    (h : Meets p { s with blocks := s.blocks ++ [trees] } (work s.blocks.length) post) :
    Meets p s (withBlock trees work) post :=
  ⟨fun hs => (h.run ⟨hs.options, hs.values⟩).close⟩

/-- A change that is progress everywhere is progress on every sheet, also where its part does not
occur. -/
theorem meets_changeWith {c : Change}
    (hc : ∀ tree : Expr, p.rel tree (tree.replace c.part c.result)) :
    Meets p s (changeWith c) fun _ => True := by
  have hsame {t : Sheet} (h : s.Follows p t) : s.Follows p { t with skipped := t.skipped + 1 } :=
    ⟨h.options, h.bindings, h.tree, h.blocks⟩
  have hflag : s.Follows p (s.flag c.approximate) := .of_same rfl rfl rfl rfl
  refine ⟨fun _ => ?_⟩
  rw [exec_changeWith]
  split
  · exact .ok (hflag.trans (.accept hc)) trivial
  · split
    · exact .error hflag fun _ h => nomatch h
    · exact .ok (hsame hflag) trivial

theorem meets_changeIfPresent {c : Change}
    (hc : ∀ tree : Expr, p.rel tree (tree.replace c.part c.result)) :
    Meets p s (changeIfPresent c) fun _ => True :=
  .look fun _ => .ite (fun _ => meets_changeWith hc) fun _ => .pure trivial

/-! ### Work that is limited by a depth -/

/-- Work that is given for every depth: on a ready sheet it comes to the same outcome from some depth on,
of which `Sound` is known. The same work for every depth comes to its outcome, whatever that is. -/
structure Reaches (total : Prop) (p : Progress) (s : Sheet) (w : ℕ → Work α) (post : α → Prop) :
    Prop where
  run : s.Ready → ∃ depth outcome, (∀ d, depth ≤ d → exec (w d) s = outcome) ∧
    Sound total p s post outcome

namespace Reaches

variable {total : Prop} {w : ℕ → Work α} {post : α → Prop}

theorem of_meets {w : Work α} (h : Meets p s w post) : Reaches total p s (fun _ => w) post :=
  ⟨fun hs => ⟨0, exec w s, fun _ _ => rfl,
    (h.run hs).follows, (h.run hs).result, fun _ => (h.run hs).ends trivial⟩⟩

theorem sound {w : Work α} (h : Reaches total p s (fun _ => w) post) (hs : s.Ready) :
    Sound total p s post (exec w s) := by
  obtain ⟨depth, outcome, hexec, hsound⟩ := h.run hs
  exact hexec depth le_rfl ▸ hsound

theorem mono {post' : α → Prop} (h : Reaches total p s w post) (hpost : ∀ a, post a → post' a) :
    Reaches total p s w post' := by
  refine ⟨fun hs => ?_⟩
  obtain ⟨depth, outcome, hexec, hsound⟩ := h.run hs
  exact ⟨depth, outcome, hexec, hsound.mono hpost⟩

theorem throw {fault : Fault} (h : total → fault ≠ .exhausted) :
    Reaches total p s (fun _ => (throw fault : Work α)) post :=
  ⟨fun _ => ⟨0, _, fun _ _ => rfl, .error (.refl s) h⟩⟩

/-- What is done one level deeper comes to the same outcome. -/
theorem succ (h : Reaches total p s (fun d => w (d + 1)) post) : Reaches total p s w post := by
  refine ⟨fun hs => ?_⟩
  obtain ⟨depth, outcome, hexec, hsound⟩ := h.run hs
  refine ⟨depth + 1, outcome, fun d hd => ?_, hsound⟩
  rw [← Nat.sub_add_cancel (Nat.le_of_add_left_le hd)]
  exact hexec (d - 1) (Nat.le_sub_one_of_lt hd)

/-- Both parts come to their outcomes at the larger one of their depths. The first part may make progress
of another kind. -/
theorem bindWeaken {q : Progress} (hpq : ∀ a b, q.rel a b → p.rel a b) {f : ℕ → α → Work β}
    {post' : β → Prop} (hw : Reaches total q s w post)
    (hf : ∀ a t, s.Follows q t → post a → Reaches total p t (fun d => f d a) post') :
    Reaches total p s (fun d => w d >>= f d) post' := by
  refine ⟨fun hs => ?_⟩
  obtain ⟨depth, ⟨fault | a, t⟩, hexec, hsound⟩ := hw.run hs
  · refine ⟨depth, _, fun d hd => exec_bind_error (hexec d hd),
      .error (hsound.follows.weaken hpq) ?_⟩
    exact fun htotal heq => hsound.ends htotal (congrArg Except.error heq)
  · obtain ⟨depth', outcome, hexec', hsound'⟩ :=
      (hf a t hsound.follows (hsound.result a rfl)).run (hsound.follows.ready hs)
    refine ⟨max depth depth', outcome, fun d hd => ?_, hsound'.after (hsound.follows.weaken hpq)⟩
    rw [exec_bind_ok (hexec d (le_of_max_le_left hd))]
    exact hexec' d (le_of_max_le_right hd)

theorem bind {f : ℕ → α → Work β} {post' : β → Prop} (hw : Reaches total p s w post)
    (hf : ∀ a t, s.Follows p t → post a → Reaches total p t (fun d => f d a) post') :
    Reaches total p s (fun d => w d >>= f d) post' :=
  hw.bindWeaken (fun _ _ => id) hf

theorem ite {c : Prop} [Decidable c] {v : ℕ → Work α} (hw : c → Reaches total p s w post)
    (hv : ¬ c → Reaches total p s v post) :
    Reaches total p s (fun d => if c then w d else v d) post := by
  split
  · exact hw ‹_›
  · exact hv ‹_›

theorem look {f : ℕ → Sheet → Work α} (h : s.Ready → Reaches total p s (fun d => f d s) post) :
    Reaches total p s (fun d => get >>= f d) post :=
  ⟨fun hs => (h hs).run hs⟩

theorem withBlock {trees : List Expr} {work : ℕ → Nat → Work α}
    (h : Reaches total p { s with blocks := s.blocks ++ [trees] }
      (fun d => work d s.blocks.length) post) :
    Reaches total p s (fun d => Work.withBlock trees (work d)) post := by
  refine ⟨fun hs => ?_⟩
  obtain ⟨depth, outcome, hexec, hsound⟩ := h.run ⟨hs.options, hs.values⟩
  refine ⟨depth, _, fun d hd => ?_, hsound.close⟩
  rw [← hexec d hd]
  rfl

theorem tryCatch {handle : Fault → Work α} (hw : Reaches total p s w post)
    (hhandle : ∀ fault t, s.Follows p t → (total → fault ≠ .exhausted) →
      Reaches total p t (fun _ => handle fault) post) :
    Reaches total p s (fun d => MonadExcept.tryCatch (w d) handle) post := by
  refine ⟨fun hs => ?_⟩
  obtain ⟨depth, ⟨fault | a, t⟩, hexec, hsound⟩ := hw.run hs
  · have hhandled := hhandle fault t hsound.follows
      fun htotal heq => hsound.ends htotal (congrArg Except.error heq)
    refine ⟨depth, _, fun d hd => exec_tryCatch_error (hexec d hd), ?_⟩
    exact (hhandled.sound (hsound.follows.ready hs)).after hsound.follows
  · exact ⟨depth, _, fun d hd => exec_tryCatch_ok (hexec d hd), hsound⟩

end Reaches

end Work

end Workings
