import Workings.Proofs.Likeness

/-!
# Work on two sheets at once

`Work.Parallel k post w v` says that the work `w` on one sheet and the work `v` on another end in the same
way, with results related by `post`, whenever the sheets are alike to the degree `k` says; and that the
sheets are then still alike.

The rules of this file have one premise for each part of a piece of work. A choice that depends on how a
solution is presented may be taken on one sheet only, so long as nothing but remarks depends on it
(`Work.Remarking.whenever`).
-/

namespace Workings

namespace Work

open Likeness (Says)

variable {α β γ δ : Type}

/-- The same end of work on two sheets. The words on a value outside of its domain do not count. -/
inductive SameEnd (post : α → β → Prop) : Except Fault α → Except Fault β → Prop
  | ok {a : α} {b : β} : post a b → SameEnd post (.ok a) (.ok b)
  | undefined (reason reason' : String) (e : Expr) :
      SameEnd post (.error (.undefined reason e)) (.error (.undefined reason' e))
  | absent (part tree : Expr) : SameEnd post (.error (.absent part tree)) (.error (.absent part tree))
  | exhausted : SameEnd post (.error .exhausted) (.error .exhausted)

/-- Outcomes with the same end, on sheets that are alike. -/
structure Agree (k : Likeness) (post : α → β → Prop) (before before' : Array Entry)
    (outcome : Except Fault α × Sheet) (outcome' : Except Fault β × Sheet) : Prop where
  ends : SameEnd post outcome.1 outcome'.1
  like : outcome.2.Like k before before' outcome'.2

/-- Work that ends in the same way on sheets that are alike, and leaves them alike. -/
def Parallel (k : Likeness) (post : α → β → Prop) (w : Work α) (v : Work β) : Prop :=
  ∀ before before' s t, s.Like k before before' t →
    Agree k post before before' (exec w s) (exec v t)

variable {k : Likeness} {post : α → β → Prop} {post' : γ → δ → Prop}

theorem SameEnd.map {result : Except Fault α} {result' : Except Fault β}
    (h : SameEnd post result result') {f : α → γ} {g : β → δ}
    (hfg : ∀ a b, post a b → post' (f a) (g b)) : SameEnd post' (result.map f) (result'.map g) := by
  cases h with
  | ok h => exact .ok (hfg _ _ h)
  | undefined reason reason' e => exact .undefined reason reason' e
  | absent part tree => exact .absent part tree
  | exhausted => exact .exhausted

/-- Work that goes on in parallel after outcomes that agree. -/
theorem Agree.bind {w : Work α} {v : Work β} {before before' : Array Entry} {s t : Sheet}
    (h : Agree k post before before' (exec w s) (exec v t)) {f : α → Work γ} {g : β → Work δ}
    (hfg : ∀ a b, post a b → Parallel k post' (f a) (g b)) :
    Agree k post' before before' (exec (w >>= f) s) (exec (v >>= g) t) := by
  obtain ⟨hend, hlike⟩ := h
  rcases hw : exec w s with ⟨result, s'⟩
  rcases hv : exec v t with ⟨result', t'⟩
  rw [hw, hv] at hend hlike
  cases hend with
  | ok hab =>
    rw [exec_bind_ok hw, exec_bind_ok hv]
    exact hfg _ _ hab before before' s' t' hlike
  | undefined reason reason' e =>
    rw [exec_bind_error hw, exec_bind_error hv]
    exact ⟨.undefined reason reason' e, hlike⟩
  | absent part tree =>
    rw [exec_bind_error hw, exec_bind_error hv]
    exact ⟨.absent part tree, hlike⟩
  | exhausted =>
    rw [exec_bind_error hw, exec_bind_error hv]
    exact ⟨.exhausted, hlike⟩

namespace Parallel

theorem pure {a : α} {b : β} (h : post a b) :
    Parallel k post (Pure.pure a : Work α) (Pure.pure b : Work β) :=
  fun _ _ _ _ hst => ⟨.ok h, hst⟩

theorem undefined (reason reason' : String) (e : Expr) :
    Parallel k post (throw (.undefined reason e) : Work α) (throw (.undefined reason' e) : Work β) :=
  fun _ _ _ _ hst => ⟨.undefined reason reason' e, hst⟩

theorem exhausted : Parallel k post (throw .exhausted : Work α) (throw .exhausted : Work β) :=
  fun _ _ _ _ hst => ⟨.exhausted, hst⟩

theorem bind {w : Work α} {v : Work β} {f : α → Work γ} {g : β → Work δ}
    (h : Parallel k post w v) (hfg : ∀ a b, post a b → Parallel k post' (f a) (g b)) :
    Parallel k post' (w >>= f) (v >>= g) :=
  fun before before' s t hst => (h before before' s t hst).bind hfg

/-- Work after work whose result does not matter. -/
theorem andThen {w v : Work Unit} {f : Unit → Work α} {g : Unit → Work β} (h : Parallel k Eq w v)
    (hfg : Parallel k post (f ()) (g ())) : Parallel k post (w >>= f) (v >>= g) :=
  h.bind fun _ _ _ => hfg

theorem ite {c : Prop} [Decidable c] {w₁ w₂ : Work α} {v₁ v₂ : Work β}
    (h₁ : Parallel k post w₁ v₁) (h₂ : Parallel k post w₂ v₂) :
    Parallel k post (if c then w₁ else w₂) (if c then v₁ else v₂) := by
  split
  · exact h₁
  · exact h₂

theorem look {f : Sheet → Work α} {g : Sheet → Work β}
    (h : ∀ s t, s.Similar k t → Parallel k post (f s) (g t)) :
    Parallel k post (get >>= f) (get >>= g) :=
  fun before before' s t hst => h s t hst.toSimilar before before' s t hst

/-- Work that looks at two given sheets. -/
theorem lookAt {f : Sheet → Work α} {g : Sheet → Work β} {before before' : Array Entry} {s t : Sheet}
    (h : Parallel k post (f s) (g t)) (hst : s.Like k before before' t) :
    Agree k post before before' (exec (get >>= f) s) (exec (get >>= g) t) :=
  h before before' s t hst

theorem change (part : Expr) {result : Expr} (hresult : k.Covers result) (approximate : Bool)
    {text text' : Option String} (htext : k.worded → text = text') :
    Parallel k Eq (changeWith ⟨part, result, text, approximate⟩)
      (changeWith ⟨part, result, text', approximate⟩) := by
  intro before before' s t hst
  have hflag : (s.flag approximate).Like k before before' (t.flag approximate) :=
    { hst with approximate := by simp only [Sheet.flag, hst.approximate] }
  rw [exec_changeWith, exec_changeWith]
  simp only [hst.tree, hst.strict]
  split
  · exact ⟨.ok rfl, hflag.accept part hresult approximate htext⟩
  · split
    · exact ⟨.absent part t.tree, hflag⟩
    · exact ⟨.ok rfl, { hflag with skipped := by simp only [hst.skipped] }⟩

/-- A change without an explanation. -/
theorem rewrite (part : Expr) {result : Expr} (hresult : k.Covers result) :
    Parallel k Eq (Work.change part result) (Work.change part result) :=
  .change part hresult false fun _ => rfl

theorem explain (part : Expr) {result : Expr} (hresult : k.Covers result) {text text' : String}
    (htext : k.Says text text') :
    Parallel k Eq (Work.explain part result text) (Work.explain part result text') :=
  .change part hresult false fun hk => congrArg some (htext hk)

theorem estimate (part : Expr) {result : Expr} (hresult : k.Covers result) {text text' : String}
    (htext : k.Says text text') :
    Parallel k Eq (Work.estimate part result text) (Work.estimate part result text') :=
  .change part hresult true fun hk => congrArg some (htext hk)

theorem remark {text text' : String} (htext : k.Says text text') (pause : Bool) :
    Parallel k Eq (modify (·.remark text pause)) (modify (·.remark text' pause)) :=
  fun _ _ _ _ hst => ⟨.ok rfl, hst.remark htext pause⟩

theorem report (status : Status) (reason : String) :
    Parallel k Eq (modify (·.report status reason)) (modify (·.report status reason)) := by
  intro before before' s t hst
  refine ⟨.ok rfl, { hst.toSimilar.report status reason with log := ?_ }⟩
  rw [exec_modify, exec_modify, Sheet.report_log, Sheet.report_log]
  exact hst.log

theorem record (hk : k.calculus) (event : Event) :
    Parallel k Eq (modify (·.record event)) (modify (·.record event)) := by
  intro before before' s t hst
  refine ⟨.ok rfl, { hst.toSimilar.record hk event with log := ?_ }⟩
  rw [exec_modify, exec_modify, Sheet.record_eq, Sheet.record_eq]
  exact hst.log

theorem absorb (hk : k.calculus) {side side' : Sheet} (hside : side.Similar k side') :
    Parallel k Eq (modify (·.absorb side)) (modify (·.absorb side')) := by
  intro before before' s t hst
  refine ⟨.ok rfl, { hst.toSimilar.absorb hk hside with log := ?_ }⟩
  rw [exec_modify, exec_modify, Sheet.absorb_log, Sheet.absorb_log]
  exact hst.log

theorem block {trees : List Expr} (htrees : ∀ e ∈ trees, k.Covers e) {w : Nat → Work α}
    {v : Nat → Work β} (h : ∀ id, Parallel k post (w id) (v id)) :
    Parallel k post (withBlock trees w) (withBlock trees v) := by
  intro before before' s t hst
  have hopened : ({ s with blocks := s.blocks ++ [trees] } : Sheet).Like k before before'
      { t with blocks := t.blocks ++ [trees] } :=
    { hst with
      blocks := by simp only [hst.blocks]
      coversBlocks := List.forall_mem_append.2 ⟨hst.coversBlocks, List.forall_mem_singleton.2 htrees⟩ }
  have hlength : t.blocks.length = s.blocks.length := by rw [hst.blocks]
  rw [exec_withBlock, exec_withBlock, hlength]
  obtain ⟨hend, hlike⟩ := h s.blocks.length before before' _ _ hopened
  exact ⟨hend, { hlike with
    blocks := by simp only [hlike.blocks]
    coversBlocks := fun trees hmem => hlike.coversBlocks trees (List.mem_of_mem_take hmem) }⟩

theorem aside (tree : Expr) {b b' : Bindings} (hb : k.SameBindings b b') {w : Work α} {v : Work β}
    (h : Parallel k post w v) :
    Parallel k (fun p q => post p.1 q.1 ∧ p.2.Similar k q.2) (onTheSide tree b w)
      (onTheSide tree b' v) := by
  intro before before' s t hst
  obtain ⟨hend, hlike⟩ := h _ _ _ _ (hst.aside tree hb)
  refine ⟨?_, { hst with }⟩
  exact hend.map fun a b hab => ⟨hab, hlike.toSimilar⟩

/-- Only a value outside of its domain is recovered from, and its words are not looked at. -/
theorem rescue {w : Work α} {v : Work β} (h : Parallel k post w v) {handle : Fault → Work α}
    {handle' : Fault → Work β}
    (hundefined : ∀ reason reason' e,
      Parallel k post (handle (.undefined reason e)) (handle' (.undefined reason' e)))
    (habsent : ∀ part tree, handle (.absent part tree) = throw (.absent part tree) ∧
      handle' (.absent part tree) = throw (.absent part tree))
    (hexhausted : handle .exhausted = throw .exhausted ∧ handle' .exhausted = throw .exhausted) :
    Parallel k post (tryCatch w handle) (tryCatch v handle') := by
  intro before before' s t hst
  obtain ⟨hend, hlike⟩ := h before before' s t hst
  rcases hw : exec w s with ⟨result, s'⟩
  rcases hv : exec v t with ⟨result', t'⟩
  rw [hw, hv] at hend hlike
  cases hend with
  | ok hab =>
    rw [exec_tryCatch_ok hw, exec_tryCatch_ok hv]
    exact ⟨.ok hab, hlike⟩
  | undefined reason reason' e =>
    rw [exec_tryCatch_error hw, exec_tryCatch_error hv]
    exact hundefined reason reason' e before before' s' t' hlike
  | absent part tree =>
    rw [exec_tryCatch_error hw, exec_tryCatch_error hv, (habsent part tree).1, (habsent part tree).2]
    exact ⟨.absent part tree, hlike⟩
  | exhausted =>
    rw [exec_tryCatch_error hw, exec_tryCatch_error hv, hexhausted.1, hexhausted.2]
    exact ⟨.exhausted, hlike⟩

theorem changeIfPresent (part : Expr) {result : Expr} (hresult : k.Covers result) :
    Parallel k Eq (changeIfPresent ⟨part, result, none, false⟩)
      (changeIfPresent ⟨part, result, none, false⟩) := by
  refine .look fun s t hst => ?_
  rw [hst.tree]
  exact .ite (.rewrite part hresult) (.pure rfl)

/-- Work that depends on the options goes on in another presentation of them. -/
theorem withOptions {f : Options → Work α} {g : Options → Work β}
    (h : ∀ o p, (k.worded → o = o.presentedBy p) → Parallel k post (f o) (g (o.presentedBy p))) :
    Parallel k post (options >>= f) (options >>= g) := by
  refine Parallel.bind (.look fun s t hst => .pure hst.options : Parallel k k.SameOptions _ _) ?_
  rintro o _ ⟨⟨p, rfl⟩, ho⟩
  exact h o p ho

/-- An expression that is given back after work. -/
theorem returning {w v : Work Unit} (h : Parallel k Eq w v) {result : Expr}
    (hresult : k.Covers result) :
    Parallel k k.Same (w >>= fun _ => Pure.pure result) (v >>= fun _ => Pure.pure result) :=
  h.andThen (.pure (.refl hresult))

/-- Work on a condition that is the same on both sheets. -/
theorem iteBind {c d : Prop} [Decidable c] [Decidable d] {w v : Work Unit} {f : Unit → Work α}
    {g : Unit → Work β}
    (h : Parallel k Eq (if c then w else Pure.pure ()) (if d then v else Pure.pure ()))
    (hfg : Parallel k post (f ()) (g ())) :
    Parallel k post (if c then w >>= f else f ()) (if d then v >>= g else g ()) := by
  have hbind {γ : Type} (c : Prop) [Decidable c] (w : Work Unit) (f : Unit → Work γ) :
      (if c then w >>= f else f ()) = (if c then w else Pure.pure ()) >>= f := by
    split
    · rfl
    · rw [pure_bind]
  rw [hbind, hbind]
  exact h.andThen hfg

end Parallel

/-! ### Messages -/

/-- Work that gives a text and leaves everything on the sheet but the missing keys. -/
def Answers (w : Work String) : Prop :=
  ∀ s, ∃ text missing, exec w s = (.ok text, { s with missing := missing })

theorem exec_ask (question : Asking α) (s : Sheet) : exec (ask question) s =
    (.ok (question.run s.missing).1, { s with missing := (question.run s.missing).2 }) :=
  rfl

theorem answers_pure (text : String) : Answers (pure text) :=
  fun s => ⟨text, s.missing, rfl⟩

theorem answers_ask (question : Asking String) : Answers (ask question) :=
  fun _ => ⟨_, _, rfl⟩

theorem Answers.look {f : Sheet → Work String} (h : ∀ s, Answers (f s)) : Answers (get >>= f) :=
  fun s => h s s

theorem Answers.bind {w : Work String} {f : String → Work String} (hw : Answers w)
    (hf : ∀ text, Answers (f text)) : Answers (w >>= f) := by
  intro s
  obtain ⟨text, missing, hexec⟩ := hw s
  obtain ⟨text', missing', hexec'⟩ := hf text { s with missing }
  exact ⟨text', missing', by rw [exec_bind_ok hexec, hexec']⟩

theorem answers_wording (key verbose concise : String) (payload : Payload) :
    Answers (wording key verbose concise payload) :=
  .look fun _ => answers_ask _

/-- Work that gives texts goes on in parallel, whatever they are. -/
theorem Parallel.answer {w v : Work String} (hw : Answers w) (hv : Answers v)
    (h : k.worded → ∀ s t, s.Similar k t → (exec w s).1 = (exec v t).1) :
    Parallel k k.Says w v := by
  intro before before' s t hst
  obtain ⟨text, missing, hexec⟩ := hw s
  obtain ⟨text', missing', hexec'⟩ := hv t
  have htext : k.Says text text' := by
    intro hk
    have hsame := h hk s t hst.toSimilar
    rw [hexec, hexec'] at hsame
    exact Except.ok.inj hsame
  rw [hexec, hexec']
  exact ⟨.ok htext, { hst with }⟩

theorem Parallel.written (e : Expr) : Parallel k k.Says (written e) (written e) :=
  .look fun _ _ hst => .pure fun hk => by rw [(hst.words hk).2.1]

theorem Parallel.wording (key : String) {verbose verbose' concise concise' : String}
    {payload payload' : Payload}
    (h : k.SameMessage verbose verbose' concise concise' payload payload') :
    Parallel k k.Says (wording key verbose concise payload)
      (wording key verbose' concise' payload') := by
  refine .answer (answers_wording _ _ _ _) (answers_wording _ _ _ _) fun hk s t hst => ?_
  obtain ⟨rfl, rfl, rfl⟩ := h hk
  obtain ⟨hphrasing, -, hsteady⟩ := hst.words hk
  unfold Work.wording
  rw [exec_get_bind, exec_get_bind, exec_ask, exec_ask, hphrasing, hst.options.2 hk]
  exact congrArg Except.ok (hsteady _ _ _ _ _)

/-- Work that writes remarks and does nothing else. -/
def Silent (w : Work Unit) : Prop :=
  ∀ s, ∃ entries missing, moves entries = [] ∧
    exec w s = (.ok (), { s with log := s.log ++ entries, missing := missing })

theorem silent_pure : Silent (pure ()) :=
  fun s => ⟨#[], s.missing, rfl, by rw [Array.append_empty]; rfl⟩

theorem silent_remark (text : String) (pause : Bool) : Silent (modify (·.remark text pause)) := by
  intro s
  rw [exec_modify, Sheet.remark_eq]
  split
  · exact ⟨#[], s.missing, rfl, by rw [Array.append_empty]⟩
  · exact ⟨#[.remark _ pause], s.missing, rfl, by rw [Array.push_eq_append]⟩

theorem Silent.andThen {w v : Work Unit} (hw : Silent w) (hv : Silent v) :
    Silent (w >>= fun _ => v) := by
  intro s
  obtain ⟨entries, missing, hmoves, hexec⟩ := hw s
  obtain ⟨entries', missing', hmoves', hexec'⟩ := hv { s with log := s.log ++ entries, missing }
  refine ⟨entries ++ entries', missing', by rw [moves_append, hmoves, hmoves']; rfl, ?_⟩
  rw [exec_bind_ok hexec, hexec', Array.append_assoc]

theorem Silent.on {w : Work String} (hw : Answers w) {f : String → Work Unit}
    (hf : ∀ text, Silent (f text)) : Silent (w >>= f) := by
  intro s
  obtain ⟨text, missing, hexec⟩ := hw s
  obtain ⟨entries, missing', hmoves, hexec'⟩ := hf text { s with missing }
  exact ⟨entries, missing', hmoves, by rw [exec_bind_ok hexec, hexec']⟩

theorem Silent.ite {c : Prop} [Decidable c] {w v : Work Unit} (hw : Silent w) (hv : Silent v) :
    Silent (if c then w else v) := by
  split
  · exact hw
  · exact hv

/-- Where words do not count, silent work goes on in parallel with any other. -/
theorem Silent.parallel {w v : Work Unit} (hw : Silent w) (hv : Silent v) (hk : ¬ k.worded) :
    Parallel k Eq w v := by
  intro before before' s t hst
  obtain ⟨entries, missing, hmoves, hexec⟩ := hw s
  obtain ⟨entries', missing', hmoves', hexec'⟩ := hv t
  rw [hexec, hexec']
  have hlog := hst.log.append (hmoves.trans hmoves'.symm) fun h => (hk h).elim
  exact ⟨.ok rfl, { hst with log := hlog }⟩

/-- Remarks on two sheets, which are the same if words are. -/
structure Remarking (k : Likeness) (w v : Work Unit) : Prop where
  parallel : Parallel k Eq w v
  left : Silent w
  right : Silent v

namespace Remarking

theorem remark {text text' : String} (h : k.Says text text') (pause : Bool) :
    Remarking k (modify (·.remark text pause)) (modify (·.remark text' pause)) :=
  ⟨.remark h pause, silent_remark text pause, silent_remark text' pause⟩

theorem andThen {w w' v v' : Work Unit} (h : Remarking k w v) (h' : Remarking k w' v') :
    Remarking k (w >>= fun _ => w') (v >>= fun _ => v') :=
  ⟨h.parallel.andThen h'.parallel, h.left.andThen h'.left, h.right.andThen h'.right⟩

/-- Asking for a message and writing it down. -/
theorem remarkOn (key : String) {verbose verbose' concise concise' : String}
    {payload payload' : Payload}
    (h : k.SameMessage verbose verbose' concise concise' payload payload') :
    Remarking k (do Work.remark (← wording key verbose concise payload))
      (do Work.remark (← wording key verbose' concise' payload')) where
  parallel := (Parallel.wording key h).bind fun _ _ htext => .remark htext false
  left := .on (answers_wording _ _ _ _) fun text => silent_remark text false
  right := .on (answers_wording _ _ _ _) fun text => silent_remark text false

/-- Remarks whose presence is a matter of presentation. -/
theorem whenever {w v : Work Unit} (h : Remarking k w v) {c d : Prop} [Decidable c] [Decidable d]
    (hcd : k.worded → (c ↔ d)) :
    Parallel k Eq (if c then w else pure ()) (if d then v else pure ()) := by
  by_cases hk : k.worded
  · simp only [hcd hk]
    exact .ite h.parallel (.pure rfl)
  · exact Silent.parallel (h.left.ite silent_pure) (h.right.ite silent_pure) hk

end Remarking

/-- A message that is written down before the rest of the work. -/
theorem Parallel.remarkOn (key : String) {verbose verbose' concise concise' : String}
    {payload payload' : Payload}
    (h : k.SameMessage verbose verbose' concise concise' payload payload')
    {f : Unit → Work α} {g : Unit → Work β} (hfg : Parallel k post (f ()) (g ())) :
    Parallel k post
      (Work.wording key verbose concise payload >>= fun text => Work.remark text >>= f)
      (Work.wording key verbose' concise' payload' >>= fun text => Work.remark text >>= g) :=
  (Parallel.wording key h).bind fun _ _ htext => (Parallel.remark htext false).andThen hfg

/-- A change that is explained by a message, and whose result is given back. -/
theorem Parallel.explainOn (key : String) {verbose verbose' concise concise' : String}
    {payload payload' : Payload}
    (h : k.SameMessage verbose verbose' concise concise' payload payload') (part : Expr)
    {result : Expr} (hresult : k.Covers result) :
    Parallel k k.Same
      (do Work.explain part result (← Work.wording key verbose concise payload); return result)
      (do Work.explain part result (← Work.wording key verbose' concise' payload'); return result) :=
  (Parallel.wording key h).bind fun _ _ htext => (Parallel.explain part hresult htext).returning hresult

/-- A remark whose presence is a matter of presentation, before the rest of the work. -/
theorem Parallel.remarkOnIf {c d : Prop} [Decidable c] [Decidable d] (hcd : k.worded → (c ↔ d))
    (key : String) {verbose verbose' concise concise' : String} {payload payload' : Payload}
    (h : k.SameMessage verbose verbose' concise concise' payload payload')
    {f : Unit → Work α} {g : Unit → Work β} (hfg : Parallel k post (f ()) (g ())) :
    Parallel k post
      (if c then Work.wording key verbose concise payload >>= fun text => Work.remark text >>= f
        else f ())
      (if d then Work.wording key verbose' concise' payload' >>= fun text => Work.remark text >>= g
        else g ()) := by
  have hrest := Parallel.iteBind ((Remarking.remarkOn key h).whenever hcd) hfg
  simpa only [bind_assoc] using hrest

end Work

end Workings
