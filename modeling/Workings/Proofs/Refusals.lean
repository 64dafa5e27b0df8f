import Workings.Proofs.Reports
import Workings.Proofs.Strictness

/-!
# Changes that are refused

A change whose part does not occur in the tree is refused. That is a fault on a strict sheet, and a
tolerant one counts it; the sheet is to stay as it was otherwise (`Work.Refuses`). The relation
`Work.Does` follows work step by step and lists the changes made and those refused. The tree, the count and
the flag for values that are not exact are settled by this list alone (`Work.Does.standing`). The flag is set
also by a change that is refused, so it tells whether an estimate was made only if none was refused
(`refused_changes`).
-/

namespace Workings

/-- What is done on a sheet to its tree, its count of changes left out, or its flag for values that are not
exact. -/
inductive Deed
  | made (c : Change)
  | refused (c : Change)
  /-- The outcome of work on the side is taken over. -/
  | absorbed (side : Sheet)

namespace Deed

/-- What becomes of a change. -/
def ofChange (s : Sheet) (c : Change) : Deed :=
  if s.tree.has c.part then .made c else .refused c

/-- Whether a value that is not exact comes with it. -/
def approximate : Deed → Bool
  | made c => c.approximate
  | refused c => c.approximate
  | absorbed side => side.approximate

/-- Whether a change to a value that is not exact was made. -/
def Estimated (deeds : List Deed) : Prop :=
  ∃ c, made c ∈ deeds ∧ c.approximate = true

/-- Whether a change to a value that is not exact was refused. -/
def EstimateRefused (deeds : List Deed) : Prop :=
  ∃ c, refused c ∈ deeds ∧ c.approximate = true

end Deed

/-! ### Where a sheet stands -/

/-- The part of a sheet that only deeds change. -/
structure Standing where
  tree : Expr
  strict : Bool
  skipped : Nat
  approximate : Bool

/-- Where a sheet stands after a deed. -/
def Standing.after (x : Standing) : Deed → Standing
  | .made c =>
    { x with
      tree := x.tree.replace c.part c.result
      approximate := x.approximate || c.approximate }
  | .refused c =>
    { x with
      skipped := if x.strict then x.skipped else x.skipped + 1
      approximate := x.approximate || c.approximate }
  | .absorbed side => { x with approximate := x.approximate || side.approximate }

theorem Standing.strict_foldl (deeds : List Deed) (x : Standing) :
    (deeds.foldl Standing.after x).strict = x.strict := by
  induction deeds generalizing x with
  | nil => rfl
  | cons deed deeds ih =>
    rw [List.foldl_cons, ih]
    cases deed <;> rfl

theorem Standing.approximate_foldl (deeds : List Deed) (x : Standing) :
    (deeds.foldl Standing.after x).approximate =
      (x.approximate || deeds.any Deed.approximate) := by
  induction deeds generalizing x with
  | nil => exact (Bool.or_false _).symm
  | cons deed deeds ih =>
    rw [List.foldl_cons, ih, List.any_cons, ← Bool.or_assoc]
    cases deed <;> rfl

namespace Sheet

/-- Where a sheet stands. -/
def standing (s : Sheet) : Standing :=
  ⟨s.tree, s.strict, s.skipped, s.approximate⟩

/-- What is written down on a sheet besides the changes of its tree. -/
inductive Note : (Sheet → Sheet) → Prop
  | remark (text : String) (pause : Bool) : Note (·.remark text pause)
  | report (status : Status) (reason : String) : Note (·.report status reason)
  | record (event : Event) : Note (·.record event)
  | tag (name : String) : Note (·.tag name)
  | setBlockItem (id index : Nat) (value : Expr) : Note (·.setBlockItem id index value)

theorem Note.standing {f : Sheet → Sheet} (h : Note f) (s : Sheet) :
    (f s).standing = s.standing := by
  cases h with
  | remark text pause => simp only [Sheet.standing, remark_eq]
  | report status reason => simp only [Sheet.standing, report_eq]
  | record event => simp only [Sheet.standing, record_eq]
  | tag name =>
    simp only [Sheet.standing, Sheet.tag]
    split <;> rfl
  | setBlockItem id index value => rfl

theorem absorb_tree (s side : Sheet) : (s.absorb side).tree = s.tree := by
  unfold absorb
  cases side.reason with
  | none => rfl
  | some reason =>
    dsimp only
    rw [report_eq]

theorem standing_absorb (s side : Sheet) :
    (s.absorb side).standing = s.standing.after (.absorbed side) := by
  have hneutral := neutral_absorb side
  unfold standing
  rw [absorb_tree, hneutral.strict, hneutral.skipped, absorb_approximate]
  rfl

end Sheet

namespace Work

variable {α : Type} {s : Sheet} {deeds : List Deed}

/-- `Refuses s c left` says that the change is a fault on a strict sheet, which is left as `left`, and that
a tolerant sheet counts it besides. -/
def Refuses (s : Sheet) (c : Change) (left : Sheet) : Prop :=
  exec (changeWith c) s =
    if s.strict then (.error (.absent c.part s.tree), left)
    else (.ok (), { left with skipped := s.skipped + 1 })

theorem standing_changeWith (c : Change) (s : Sheet) :
    (exec (changeWith c) s).2.standing = s.standing.after (.ofChange s c) := by
  rw [exec_changeWith, Deed.ofChange]
  cases s.tree.has c.part with
  | true => rfl
  | false =>
    simp only [Bool.false_eq_true, if_false]
    cases hstrict : s.strict <;>
      simp [Standing.after, Sheet.standing, Sheet.flag, hstrict]

/-- A change whose part does not occur changes nothing but the flag. -/
theorem refuses_flag {c : Change} (h : s.tree.occurrences c.part = 0) :
    Refuses s c (s.flag c.approximate) := by
  have habsent : s.tree.has c.part = false := by
    rw [Expr.has, h]
    rfl
  rw [Refuses, exec_changeWith, habsent]
  rfl

/-- It leaves the sheet alone unless it comes with a flag that the sheet does not have yet. -/
theorem refuses_iff {c : Change} (h : s.tree.occurrences c.part = 0) :
    Refuses s c s ↔ (c.approximate = true → s.approximate = true) := by
  constructor
  · intro hrefuses happroximate
    have hflag := (exec_changeWith_outcome c s).2.2
    rw [Refuses] at hrefuses
    rw [hrefuses, happroximate, Bool.or_true] at hflag
    rw [← hflag]
    split <;> rfl
  · intro hkept
    have hor : (s.approximate || c.approximate) = s.approximate := by
      cases hc : c.approximate with
      | false => exact Bool.or_false _
      | true => rw [hkept hc, Bool.or_true]
    have hrefuses := refuses_flag h
    rw [Sheet.flag, hor] at hrefuses
    exact hrefuses

/-! ### The deeds of work -/

/-- `Does w s deeds` says that the work `w`, begun on the sheet `s`, does these deeds on it, one after the
other. What is done on the side is done on another sheet. -/
inductive Does : {α : Type} → Work α → Sheet → List Deed → Prop
  | pure {α : Type} (a : α) (s : Sheet) : Does (Pure.pure a) s []
  | fault {α : Type} (fault : Fault) (s : Sheet) : Does (throw fault : Work α) s []
  | bind {α β : Type} {w : Work α} {f : α → Work β} {s t : Sheet} {a : α} {first rest : List Deed} :
      exec w s = (.ok a, t) → Does w s first → Does (f a) t rest → Does (w >>= f) s (first ++ rest)
  | broken {α β : Type} {w : Work α} {f : α → Work β} {s t : Sheet} {fault : Fault}
      {deeds : List Deed} :
      exec w s = (.error fault, t) → Does w s deeds → Does (w >>= f) s deeds
  | look {α : Type} {f : Sheet → Work α} {s : Sheet} {deeds : List Deed} :
      Does (f s) s deeds → Does (get >>= f) s deeds
  | change (c : Change) (s : Sheet) : Does (changeWith c) s [.ofChange s c]
  | note {f : Sheet → Sheet} (s : Sheet) : Sheet.Note f → Does (modify f) s []
  | absorb (side s : Sheet) : Does (modify (·.absorb side)) s [.absorbed side]
  | ask {α : Type} (question : Asking α) (s : Sheet) : Does (ask question) s []
  | block {α : Type} {trees : List Expr} {work : Nat → Work α} {s : Sheet} {deeds : List Deed} :
      Does (work s.blocks.length) { s with blocks := s.blocks ++ [trees] } deeds →
      Does (withBlock trees work) s deeds
  | aside {α : Type} (tree : Expr) (bindings : Bindings) (work : Work α) (s : Sheet) :
      Does (onTheSide tree bindings work) s []
  | attempt {α : Type} {w : Work α} {handle : Fault → Work α} {s t : Sheet} {a : α}
      {deeds : List Deed} :
      exec w s = (.ok a, t) → Does w s deeds → Does (tryCatch w handle) s deeds
  | rescue {α : Type} {w : Work α} {handle : Fault → Work α} {s t : Sheet} {reason : String} {e : Expr}
      {first rest : List Deed} :
      exec w s = (.error (.undefined reason e), t) → Does w s first →
      Does (handle (.undefined reason e)) t rest → Does (tryCatch w handle) s (first ++ rest)
  | passOn {α : Type} {w : Work α} {handle : Fault → Work α} {s t : Sheet} {fault : Fault}
      {deeds : List Deed} :
      exec w s = (.error fault, t) → handle fault = throw fault → Does w s deeds →
      Does (tryCatch w handle) s deeds

/-- All work that solutions are made of does some deeds. -/
theorem Routine.exists_does {w : Work α} (h : Routine w) (s : Sheet) : ∃ deeds, Does w s deeds := by
  induction h generalizing s with
  | pure a => exact ⟨_, .pure a s⟩
  | @bind α β w f _ _ ihw ihf =>
    obtain ⟨first, hfirst⟩ := ihw s
    rcases hexec : exec w s with ⟨fault | a, t⟩
    · exact ⟨_, .broken hexec hfirst⟩
    · obtain ⟨rest, hrest⟩ := ihf a t
      exact ⟨_, .bind hexec hfirst hrest⟩
  | undefined reason e => exact ⟨_, .fault _ s⟩
  | exhausted => exact ⟨_, .fault _ s⟩
  | look _ _ ih =>
    obtain ⟨deeds, hdeeds⟩ := ih s s
    exact ⟨_, .look hdeeds⟩
  | change c => exact ⟨_, .change c s⟩
  | remark text pause => exact ⟨_, .note s (.remark text pause)⟩
  | report status reason => exact ⟨_, .note s (.report status reason)⟩
  | record event => exact ⟨_, .note s (.record event)⟩
  | absorb side => exact ⟨_, .absorb side s⟩
  | ask question => exact ⟨_, .ask question s⟩
  | block trees _ ih =>
    obtain ⟨deeds, hdeeds⟩ := ih s.blocks.length { s with blocks := s.blocks ++ [trees] }
    exact ⟨_, .block hdeeds⟩
  | aside tree bindings _ _ => exact ⟨_, .aside tree bindings _ s⟩
  | @rescue α w handle _ _ habsent hexhausted ihw ihh =>
    obtain ⟨first, hfirst⟩ := ihw s
    rcases hexec : exec w s with ⟨fault | a, t⟩
    · cases fault with
      | undefined reason e =>
        obtain ⟨rest, hrest⟩ := ihh reason e t
        exact ⟨_, .rescue hexec hfirst hrest⟩
      | absent part tree => exact ⟨_, .passOn hexec (habsent part tree) hfirst⟩
      | exhausted => exact ⟨_, .passOn hexec hexhausted hfirst⟩
    · exact ⟨_, .attempt hexec hfirst⟩

/-- Where the sheet stands afterwards is settled by the deeds. -/
theorem Does.standing {w : Work α} (h : Does w s deeds) :
    (exec w s).2.standing = deeds.foldl Standing.after s.standing := by
  induction h with
  | pure a s => rfl
  | fault fault s => rfl
  | bind hexec _ _ ihw ihf =>
    rw [hexec] at ihw
    rw [exec_bind_ok hexec, ihf, ihw, List.foldl_append]
  | broken hexec _ ih =>
    rw [hexec] at ih
    rw [exec_bind_error hexec, ih]
  | look _ ih => exact ih
  | change c s => exact standing_changeWith c s
  | note s hnote => exact hnote.standing s
  | absorb side s => exact Sheet.standing_absorb s side
  | ask question s => rfl
  | block _ ih => exact ih
  | aside tree bindings work s => rfl
  | attempt hexec _ ih =>
    rw [hexec] at ih
    rw [exec_tryCatch_ok hexec, ih]
  | rescue hexec _ _ ihw ihh =>
    rw [hexec] at ihw
    rw [exec_tryCatch_error hexec, ihh, ihw, List.foldl_append]
  | passOn hexec hpass _ ih =>
    rw [hexec] at ih
    rw [exec_tryCatch_error hexec, hpass]
    exact ih

theorem Does.strict {w : Work α} (h : Does w s deeds) : (exec w s).2.strict = s.strict :=
  (congrArg Standing.strict h.standing).trans (Standing.strict_foldl deeds _)

/-- The flag is that of all changes tried and of all that was taken over. -/
theorem Does.approximate {w : Work α} (h : Does w s deeds) :
    (exec w s).2.approximate = (s.approximate || deeds.any Deed.approximate) :=
  (congrArg Standing.approximate h.standing).trans (Standing.approximate_foldl deeds _)

/-- Work on a strict sheet that no absent part has ended has had no change refused. -/
theorem Does.not_refused {w : Work α} (h : Does w s deeds) (hs : s.strict = true)
    (hend : Unbroken (exec w s).1) (c : Change) : .refused c ∉ deeds := by
  induction h with
  | pure a s => exact List.not_mem_nil
  | fault fault s => exact List.not_mem_nil
  | bind hexec hfirst _ ihw ihf =>
    have ht := hfirst.strict.trans hs
    rw [hexec] at ihw ht
    rw [exec_bind_ok hexec] at hend
    rw [List.mem_append, not_or]
    exact ⟨ihw hs trivial, ihf ht hend⟩
  | broken hexec _ ih =>
    rw [hexec] at ih
    rw [exec_bind_error hexec] at hend
    exact ih hs hend.error
  | look _ ih => exact ih hs hend
  | change d s =>
    -- a change that is refused on a strict sheet is the end of the work
    rw [exec_changeWith, hs] at hend
    rw [List.mem_singleton, Deed.ofChange]
    cases hhas : s.tree.has d.part with
    | true => exact nofun
    | false =>
      rw [hhas] at hend
      exact hend.elim
  | note s hnote => exact List.not_mem_nil
  | absorb side s =>
    rw [List.mem_singleton]
    exact nofun
  | ask question s => exact List.not_mem_nil
  | block _ ih => exact ih hs hend
  | aside tree bindings work s => exact List.not_mem_nil
  | attempt hexec _ ih =>
    rw [hexec] at ih
    exact ih hs trivial
  | rescue hexec hfirst _ ihw ihh =>
    have ht := hfirst.strict.trans hs
    rw [hexec] at ihw ht
    rw [exec_tryCatch_error hexec] at hend
    rw [List.mem_append, not_or]
    exact ⟨ihw hs trivial, ihh ht hend⟩
  | passOn hexec hpass _ ih =>
    rw [hexec] at ih
    rw [exec_tryCatch_error hexec, hpass] at hend
    exact ih hs hend

/-- Where nothing is taken over, the flag is set by the changes, made or refused. -/
theorem Does.approximate_iff {w : Work α} (h : Does w s deeds) (hs : s.approximate = false)
    (hown : ∀ side, .absorbed side ∉ deeds) :
    (exec w s).2.approximate = true ↔ Deed.Estimated deeds ∨ Deed.EstimateRefused deeds := by
  rw [h.approximate, hs, Bool.false_or, List.any_eq_true]
  constructor
  · rintro ⟨deed, hmem, happroximate⟩
    cases deed with
    | made c => exact .inl ⟨c, hmem, happroximate⟩
    | refused c => exact .inr ⟨c, hmem, happroximate⟩
    | absorbed side => exact absurd hmem (hown side)
  · rintro (⟨c, hmem, happroximate⟩ | ⟨c, hmem, happroximate⟩)
    · exact ⟨_, hmem, happroximate⟩
    · exact ⟨_, hmem, happroximate⟩

end Work

open Work (Does Refuses Routine Unbroken changeWith exec)

open Deed (Estimated EstimateRefused)

/-- A refused change leaves all but the flag alone, and the flag too if and only if the change does not come
with a flag that the sheet does not have yet. Over a whole run, of a solution or of any work it is made of,
the tree follows the changes made, and the count those refused. Where nothing is taken over from the side, the
flag tells whether a change to a value that is not exact was made, if and only if none was refused without one
being made; on a strict sheet this is so whenever the run does not end with a refused change. -/
theorem refused_changes {α : Type} (w : Work α) (s : Sheet) :
    (∀ c : Change, s.tree.occurrences c.part = 0 →
      (∃ flag, Refuses s c { s with approximate := flag }) ∧
        (Refuses s c s ↔ (c.approximate = true → s.approximate = true))) ∧
    (Routine w → ∃ deeds, Does w s deeds) ∧ Routine (Work.solveWith Expr.simplify) ∧
    ∀ deeds, Does w s deeds →
      (exec w s).2.standing = deeds.foldl Standing.after s.standing ∧
      (s.approximate = false → (∀ side, .absorbed side ∉ deeds) →
        (((exec w s).2.approximate = true ↔ Estimated deeds) ↔
          (EstimateRefused deeds → Estimated deeds)) ∧
        (s.strict = true → Unbroken (exec w s).1 →
          ((exec w s).2.approximate = true ↔ Estimated deeds))) := by
  refine ⟨fun c h => ⟨⟨_, Work.refuses_flag h⟩, Work.refuses_iff h⟩, fun h => h.exists_does s,
    routine_solve, fun deeds h => ⟨h.standing, ?_⟩⟩
  intro hs hown
  rw [h.approximate_iff hs hown, or_iff_left_iff_imp]
  refine ⟨Iff.rfl, ?_⟩
  rintro hstrict hend ⟨c, hmem, -⟩
  exact absurd hmem (h.not_refused hstrict hend c)

/-- An estimate is made and another one refused, which leaves the sheet alone. -/
theorem refused_changes_second :
    let first : Change := ⟨1, 2, none, true⟩
    let second : Change := ⟨5, 6, none, true⟩
    let both := changeWith first >>= fun _ => changeWith second
    let s := Sheet.new 1 {} {} false
    let t := (exec (changeWith first) s).2
    Refuses t second t ∧
      Does both s [.made first, .refused second] ∧
      ((exec both s).2.approximate = true ↔ Estimated [.made first, .refused second]) ∧
      (exec both s).2.approximate = true ∧
      ((exec (changeWith first) { s with strict := true }).2.approximate = true ↔
        Estimated [.made first]) := by
  intro first second both s t
  have hfirst : exec (changeWith first) s = (.ok (), t) := rfl
  have hmade : Deed.ofChange s first = .made first := if_pos (by decide +kernel)
  have hrefused : Deed.ofChange t second = .refused second := if_neg (by decide +kernel)
  have hdoes : Does both s [.made first, .refused second] := by
    rw [← hmade, ← hrefused]
    exact .bind hfirst (.change first s) (.change second t)
  have hstrict : Does (changeWith first) { s with strict := true } [.made first] := by
    rw [← hmade]
    exact .change first _
  have hestimated : Estimated [.made first, .refused second] := ⟨first, List.mem_cons_self, rfl⟩
  have hflag := (((refused_changes both s).2.2.2 _ hdoes).2 rfl (by simp)).1.2 fun _ => hestimated
  refine ⟨?_, hdoes, hflag, hflag.2 hestimated, ?_⟩
  · exact ((refused_changes both t).1 second (by decide +kernel)).2.2 fun _ => rfl
  · exact (((refused_changes _ _).2.2.2 _ hstrict).2 rfl (by simp)).2 rfl (by decide +kernel)

/-- An estimate that is refused sets the flag nevertheless, on a strict sheet as on a tolerant one. So the
solution of `-1 * (12 - 2)` is not exact although none of its steps estimates anything: the product has
become `-10` by the time its estimate is to be written down. -/
theorem refused_estimate_flags :
    let estimate : Change := ⟨5, 6, none, true⟩
    let s := Sheet.new 1 {} {} false
    let strict := { s with strict := true }
    s.tree.occurrences estimate.part = 0 ∧ ¬ Refuses s estimate s ∧
      ¬ Refuses strict estimate strict ∧
      Does (changeWith estimate) s [.refused estimate] ∧
      (exec (changeWith estimate) s).2.approximate = true ∧ ¬ Estimated [.refused estimate] ∧
      ∃ result sheet,
        solve (.prod [Expr.minusOne, .sum [12, .int (-2)]]) {} { magnitudeThreshold := some 2 } false =
          .ok (result, sheet) ∧
        sheet.approximate = true ∧ sheet.skipped = 1 ∧
        sheet.steps.all (fun step => !step.approximate) = true := by
  intro estimate s strict
  have habsent : s.tree.occurrences estimate.part = 0 := by decide +kernel
  have hrefused : Deed.ofChange s estimate = .refused estimate := if_neg (by decide +kernel)
  have hsets {t : Sheet} (ht : t.tree.occurrences estimate.part = 0) (hnew : t.approximate = false) :
      ¬ Refuses t estimate t := by
    rw [Work.refuses_iff ht, hnew]
    exact fun h => Bool.false_ne_true (h rfl)
  refine ⟨habsent, hsets habsent rfl, hsets habsent rfl, ?_, rfl, ?_, ?_⟩
  · rw [← hrefused]
    exact .change estimate s
  · rintro ⟨c, hmem, -⟩
    cases List.mem_singleton.1 hmem
  · obtain ⟨result, sheet, hsolve, houtcome⟩ := exists_of_solves
      (p := fun _ sheet => sheet.approximate && (sheet.skipped == 1) &&
        sheet.steps.all (fun step => !step.approximate))
      (show Solves (.prod [Expr.minusOne, .sum [12, .int (-2)]]) {} { magnitudeThreshold := some 2 }
        false _ = true by decide +kernel)
    simp only [Bool.and_eq_true, beq_iff_eq] at houtcome
    exact ⟨result, sheet, hsolve, houtcome.1.1, houtcome.1.2, houtcome.2⟩

end Workings
