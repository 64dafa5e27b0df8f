import Mathlib.Order.Lattice
import Mathlib.Data.List.Basic
import Workings.Proofs.Routine

/-!
# Status and reason

The status of a sheet and its reason sum up what was reported (`Sheet.SumsUp`): the status is the most
severe one, and the reason is the one given with the first report of that status. Work on the side
counts as one report, of its own status and reason. Every operation looks only at the sum of the reports
before it, so this holds of every history of reports (`Sheet.Reported`), and a status once reached is
never left for a milder one.
-/

namespace Workings

open Work (Routine exec)

/-- Statuses are ordered by severity. -/
instance : LinearOrder Status :=
  LinearOrder.lift' Status.severity fun a b h => by cases a <;> cases b <;> first | rfl | cases h

namespace Status

theorem exact_le (a : Status) : exact ≤ a :=
  Nat.zero_le a.severity

end Status

namespace Sheet

/-- What work on the side reports: its status and reason, if it has a reason. -/
def verdict? (side : Sheet) : Option (Status × String) :=
  side.reason.map (side.status, ·)

/-- The outcome of a sheet came about by reports, the first one first. Work on the side that was taken
over counts as one report if it has a reason. Whatever leaves status and reason alone may happen in
between. -/
inductive Reported : List (Status × String) → Sheet → Prop
  | fresh {s : Sheet} : s.status = .exact → s.reason = none → Reported [] s
  | report {reports : List (Status × String)} {s : Sheet} (status : Status) (reason : String) :
      Reported reports s → Reported (reports ++ [(status, reason)]) (s.report status reason)
  | absorb {reports reportsAside : List (Status × String)} {s side : Sheet} :
      Reported reports s → Reported reportsAside side →
      Reported (reports ++ side.verdict?.toList) (s.absorb side)
  | keep {reports : List (Status × String)} {s t : Sheet} :
      Reported reports s → t.status = s.status → t.reason = s.reason → Reported reports t

/-- Whether no report is more severe. -/
def isWorst (reports : List (Status × String)) (report : Status × String) : Bool :=
  reports.all (·.1 ≤ report.1)

/-- The most severe status of all reports, and the reason of the first report of that status. -/
structure SumsUp (reports : List (Status × String)) (s : Sheet) : Prop where
  status : s.status = (reports.map Prod.fst).foldr max .exact
  reason : s.reason = (reports.find? (isWorst reports)).map Prod.snd

variable {reports : List (Status × String)} {s t side : Sheet}

theorem report_status (s : Sheet) (status : Status) (reason : String) :
    (s.report status reason).status = max s.status status := by
  rw [report_eq]
  show (if s.status < status then status else s.status) = _
  split
  · rename_i h
    exact (max_eq_right h.le).symm
  · rename_i h
    exact (max_eq_left (not_lt.1 h)).symm

theorem report_reason (s : Sheet) (status : Status) (reason : String) :
    (s.report status reason).reason =
      if s.status < status then some reason else s.reason.or (some reason) := by
  rw [report_eq]
  rfl

theorem absorb_of_none (h : side.reason = none) :
    (s.absorb side).status = s.status ∧ (s.absorb side).reason = s.reason := by
  unfold absorb
  rw [h]
  exact ⟨rfl, rfl⟩

theorem absorb_of_some {reason : String} (h : side.reason = some reason) :
    (s.absorb side).status = (s.report side.status reason).status ∧
      (s.absorb side).reason = (s.report side.status reason).reason := by
  unfold absorb
  rw [h]
  exact ⟨rfl, rfl⟩

/-! ### Summing up -/

namespace SumsUp

theorem nil (hstatus : s.status = .exact) (hreason : s.reason = none) : SumsUp [] s :=
  ⟨hstatus, hreason⟩

theorem of_same (h : SumsUp reports s) (hstatus : t.status = s.status)
    (hreason : t.reason = s.reason) : SumsUp reports t :=
  ⟨hstatus ▸ h.status, hreason ▸ h.reason⟩

theorem le_status (h : SumsUp reports s) {report : Status × String} (hmem : report ∈ reports) :
    report.1 ≤ s.status := by
  rw [h.status]
  clear h
  induction reports with
  | nil => cases hmem
  | cons first rest ih =>
    rcases List.mem_cons.1 hmem with rfl | hmem
    · exact le_max_left _ _
    · exact (ih hmem).trans (le_max_right _ _)

/-- A status that was reported, unless there were no reports. -/
theorem exists_report (h : SumsUp reports s) (hne : reports ≠ []) :
    ∃ report ∈ reports, report.1 = s.status := by
  rw [h.status]
  clear h
  induction reports with
  | nil => exact absurd rfl hne
  | cons first rest ih =>
    rcases le_total ((rest.map Prod.fst).foldr max .exact) first.1 with hle | hle
    · exact ⟨first, by simp, (max_eq_left hle).symm⟩
    · by_cases hrest : rest = []
      · subst hrest
        exact ⟨first, by simp, (max_eq_left (Status.exact_le _)).symm⟩
      · obtain ⟨report, hmem, hreport⟩ := ih hrest
        exact ⟨report, List.mem_cons_of_mem _ hmem, hreport.trans (max_eq_right hle).symm⟩

theorem isWorst_iff (h : SumsUp reports s) {report : Status × String} (hmem : report ∈ reports) :
    isWorst reports report = true ↔ report.1 = s.status := by
  unfold isWorst
  rw [List.all_eq_true]
  constructor
  · intro hworst
    obtain ⟨other, hother, hstatus⟩ := h.exists_report (List.ne_nil_of_mem hmem)
    refine le_antisymm (h.le_status hmem) ?_
    rw [← hstatus]
    exact of_decide_eq_true (hworst other hother)
  · intro hstatus other hother
    exact decide_eq_true (hstatus ▸ h.le_status hother)

/-- The first report of the most severe status. -/
theorem exists_find? (h : SumsUp reports s) (hne : reports ≠ []) :
    ∃ report, reports.find? (isWorst reports) = some report ∧ report.1 = s.status := by
  obtain ⟨report, hmem, hstatus⟩ := h.exists_report hne
  have hfound : (reports.find? (isWorst reports)).isSome := by
    rw [List.find?_isSome]
    exact ⟨report, hmem, (h.isWorst_iff hmem).2 hstatus⟩
  obtain ⟨first, hfirst⟩ := Option.isSome_iff_exists.1 hfound
  have hworst := List.find?_some hfirst
  exact ⟨first, hfirst, (h.isWorst_iff (List.mem_of_find?_eq_some hfirst)).1 hworst⟩

/-- One more report. Either it is more severe than all before it, or the first of the most severe ones
stays the same. -/
theorem report (h : SumsUp reports s) (status : Status) (reason : String) :
    SumsUp (reports ++ [(status, reason)]) (s.report status reason) := by
  have happend (r : Status × String) :
      isWorst (reports ++ [(status, reason)]) r = (isWorst reports r && decide (status ≤ r.1)) := by
    simp [isWorst]
  refine ⟨?_, ?_⟩
  · rw [report_status, h.status]
    clear happend h
    induction reports with
    | nil => exact max_comm _ _
    | cons first rest ih => exact (max_assoc _ _ _).trans (congrArg (max first.1) ih)
  · rw [report_reason, List.find?_append]
    by_cases hmore : s.status < status
    · have hnone : reports.find? (isWorst (reports ++ [(status, reason)])) = none := by
        rw [List.find?_eq_none]
        intro r hr hworst
        rw [happend, Bool.and_eq_true, decide_eq_true_eq] at hworst
        exact absurd (hmore.trans_le hworst.2) (not_lt.2 (h.le_status hr))
      have hlast : isWorst (reports ++ [(status, reason)]) (status, reason) = true := by
        rw [happend, decide_eq_true (le_refl _), Bool.and_true, isWorst, List.all_eq_true]
        exact fun r hr => decide_eq_true ((h.le_status hr).trans hmore.le)
      rw [if_pos hmore, hnone, List.find?_singleton, hlast]
      rfl
    · have hle := not_lt.1 hmore
      rw [if_neg hmore]
      by_cases hne : reports = []
      · subst hne
        have hexact : s.status = .exact := h.status
        have hlast : isWorst [(status, reason)] (status, reason) = true := by simp [isWorst]
        rw [h.reason, List.nil_append, List.find?_singleton, hlast]
        rfl
      · obtain ⟨first, hfirst, hstatus⟩ := h.exists_find? hne
        have hsame : reports.find? (isWorst (reports ++ [(status, reason)])) = some first := by
          obtain ⟨hworst, before, after, hsplit, hbefore⟩ := List.find?_eq_some_iff_append.1 hfirst
          refine List.find?_eq_some_iff_append.2 ⟨?_, before, after, hsplit, fun r hr => ?_⟩
          · rw [happend, hworst, hstatus, decide_eq_true hle]
            rfl
          · rw [happend, Bool.not_and, hbefore r hr, Bool.true_or]
        rw [h.reason, hfirst, hsame]
        rfl

/-- A status above exact has a reason. -/
theorem isSome_reason (h : SumsUp reports s) (hstatus : s.status ≠ .exact) :
    s.reason.isSome = true := by
  have hne : reports ≠ [] := by
    rintro rfl
    exact hstatus h.status
  obtain ⟨first, hfirst, -⟩ := h.exists_find? hne
  rw [h.reason, hfirst]
  rfl

end SumsUp

/-- A history of reports is summed up by the status and the reason it leaves. -/
theorem Reported.sumsUp (h : s.Reported reports) : SumsUp reports s := by
  induction h with
  | fresh hstatus hreason => exact .nil hstatus hreason
  | report status reason _ ih => exact ih.report status reason
  | @absorb reports reportsAside s side _ _ ih _ =>
    unfold verdict?
    cases hside : side.reason with
    | none =>
      obtain ⟨hstatus, hreason⟩ := absorb_of_none (s := s) hside
      rw [Option.map_none, Option.toList_none, List.append_nil]
      exact ih.of_same hstatus hreason
    | some reason =>
      obtain ⟨hstatus, hreason⟩ := absorb_of_some (s := s) hside
      exact (ih.report side.status reason).of_same hstatus hreason
  | keep _ hstatus hreason ih => exact ih.of_same hstatus hreason

/-! ### What is never lost -/

/-- Nothing of the outcome of `s` is lost in `t`: neither how severe it is nor that it was rounded. -/
structure Covers (t s : Sheet) : Prop where
  status : s.status ≤ t.status
  approximate : s.approximate = true → t.approximate = true

theorem Covers.refl (s : Sheet) : s.Covers s :=
  ⟨le_refl _, id⟩

theorem Covers.trans {u : Sheet} (hts : t.Covers s) (hut : u.Covers t) : u.Covers s :=
  ⟨hts.status.trans hut.status, hut.approximate ∘ hts.approximate⟩

theorem covers_of_same (hstatus : t.status = s.status) (happroximate : t.approximate = s.approximate) :
    t.Covers s :=
  ⟨hstatus.ge, happroximate.trans⟩

theorem covers_report (s : Sheet) (status : Status) (reason : String) :
    (s.report status reason).Covers s := by
  refine ⟨?_, fun h => ?_⟩
  · rw [report_status]
    exact le_max_left _ _
  · rw [report_eq]
    exact h

theorem absorb_approximate (s side : Sheet) :
    (s.absorb side).approximate = (s.approximate || side.approximate) := by
  unfold absorb
  cases side.reason with
  | none => rfl
  | some reason =>
    dsimp only
    rw [report_eq]

/-- A status above exact says why. -/
def Justified (s : Sheet) : Prop :=
  s.status ≠ .exact → s.reason.isSome = true

theorem justified_report (s : Sheet) (status : Status) (reason : String) :
    (s.report status reason).Justified := by
  intro _
  rw [report_reason]
  split
  · rfl
  · cases s.reason <;> rfl

/-- A status that says why is not lost when it is taken over. -/
theorem Justified.absorb_status (h : side.Justified) (s : Sheet) :
    (s.absorb side).status = max s.status side.status := by
  cases hside : side.reason with
  | none =>
    have hexact : side.status = .exact := by
      by_contra hnot
      have hsome := h hnot
      rw [hside] at hsome
      cases hsome
    rw [(absorb_of_none hside).1, hexact]
    exact (max_eq_left (Status.exact_le _)).symm
  | some reason => rw [(absorb_of_some hside).1, report_status]

theorem covers_absorb (s side : Sheet) : (s.absorb side).Covers s := by
  refine ⟨?_, fun h => ?_⟩
  · cases hside : side.reason with
    | none => exact (absorb_of_none hside).1.ge
    | some reason =>
      rw [(absorb_of_some hside).1]
      exact (covers_report s side.status reason).status
  · rw [absorb_approximate, h, Bool.true_or]

/-- Taking work on the side over loses nothing of its outcome. -/
theorem Justified.covers_absorb (h : side.Justified) (s : Sheet) : (s.absorb side).Covers side := by
  refine ⟨?_, fun happroximate => ?_⟩
  · rw [h.absorb_status]
    exact le_max_right _ _
  · rw [absorb_approximate, happroximate, Bool.or_true]

theorem Justified.of_same (h : s.Justified) (hstatus : t.status = s.status)
    (hreason : t.reason = s.reason) : t.Justified := by
  unfold Justified
  rw [hstatus, hreason]
  exact h

theorem Justified.absorb (h : s.Justified) (side : Sheet) : (s.absorb side).Justified := by
  cases hside : side.reason with
  | none =>
    obtain ⟨hstatus, hreason⟩ := absorb_of_none (s := s) hside
    exact h.of_same hstatus hreason
  | some reason =>
    obtain ⟨hstatus, hreason⟩ := absorb_of_some (s := s) hside
    exact (justified_report s side.status reason).of_same hstatus hreason

end Sheet

namespace Work

variable {α : Type}

theorem exec_changeWith_outcome (c : Change) (s : Sheet) :
    (exec (changeWith c) s).2.status = s.status ∧ (exec (changeWith c) s).2.reason = s.reason ∧
      (exec (changeWith c) s).2.approximate = (s.approximate || c.approximate) := by
  rw [exec_changeWith]
  split
  · exact ⟨rfl, rfl, rfl⟩
  · split <;> exact ⟨rfl, rfl, rfl⟩

/-- No work loses anything of the outcome. -/
theorem Routine.covers {w : Work α} (h : Routine w) (s : Sheet) : (exec w s).2.Covers s := by
  refine h.keeps (R := fun s t => t.Covers s) ?_ s
  exact {
    refl := Sheet.Covers.refl
    trans := Sheet.Covers.trans
    change := fun c s => by
      obtain ⟨hstatus, -, happroximate⟩ := exec_changeWith_outcome c s
      exact ⟨hstatus.ge, fun h => by rw [happroximate, h, Bool.true_or]⟩
    remark := fun text pause s => by
      rw [Sheet.remark_eq]
      exact Sheet.covers_of_same rfl rfl
    report := fun status reason s => Sheet.covers_report s status reason
    record := fun event s => by
      rw [Sheet.record_eq]
      exact Sheet.covers_of_same rfl rfl
    absorb := fun side s => Sheet.covers_absorb s side
    missing := fun _ _ => Sheet.covers_of_same rfl rfl
    close := fun _ _ _ h => ⟨h.status, h.approximate⟩ }

/-- No work leaves a status without a reason. -/
theorem Routine.justified {w : Work α} (h : Routine w) {s : Sheet} (hs : s.Justified) :
    (exec w s).2.Justified := by
  refine h.keeps (R := fun s t => s.Justified → t.Justified) ?_ s hs
  exact {
    refl := fun _ h => h
    trans := fun hst htu h => htu (hst h)
    change := fun c s h => by
      obtain ⟨hstatus, hreason, -⟩ := exec_changeWith_outcome c s
      exact h.of_same hstatus hreason
    remark := fun text pause s h => by
      rw [Sheet.remark_eq]
      exact h.of_same rfl rfl
    report := fun status reason s _ => Sheet.justified_report s status reason
    record := fun event s h => by
      rw [Sheet.record_eq]
      exact h.of_same rfl rfl
    absorb := fun side _ h => h.absorb side
    missing := fun _ _ h => h.of_same rfl rfl
    close := fun _ _ _ hopen h => (hopen (h.of_same rfl rfl)).of_same rfl rfl }

end Work

open Sheet (isWorst Reported)

/-- After any history of reports the status is the most severe one reported, the reason is that of the
first report of this status, and a status above exact has a reason. So nothing is lost when the sheet is
taken over, and neither a solution nor any work that solutions are made of ever lowers a status. -/
theorem reported_outcome {reports : List (Status × String)} {s : Sheet} (h : s.Reported reports) :
    s.status = (reports.map Prod.fst).foldr max .exact ∧
      s.reason = (reports.find? (isWorst reports)).map Prod.snd ∧
      (s.status ≠ .exact → s.reason.isSome = true) ∧
      (∀ t : Sheet, (t.absorb s).status = max t.status s.status) ∧
      Routine (Work.solveWith Expr.simplify) ∧
      ∀ (t : Sheet) {α : Type} {w : Work α}, Routine w → t.status ≤ (exec w t).2.status := by
  have hsum := h.sumsUp
  have hjustified : s.Justified := hsum.isSome_reason
  exact ⟨hsum.status, hsum.reason, hjustified, hjustified.absorb_status,
    routine_solve, fun t _ _ hw => (hw.covers t).status⟩

/-- Two partial results, then work on the side that is partial first and then unsolved, then one more
partial result. -/
theorem reported_outcome_nested : ∃ s : Sheet,
    s.Reported [(.partly, "first"), (.partly, "second"), (.unsolved, "worse"), (.partly, "milder")] ∧
      s.status = .unsolved ∧ s.reason = some "worse" := by
  have hside := ((Reported.fresh (s := Sheet.new 1 {} {} true) rfl rfl).report .partly "mild").report
    .unsolved "worse"
  have hfirst := ((Reported.fresh (s := Sheet.new 2 {} {} true) rfl rfl).report .partly "first").report
    .partly "second"
  have h := (hfirst.absorb hside).report .partly "milder"
  obtain ⟨hstatus, hreason, -⟩ := reported_outcome h
  exact ⟨_, h, hstatus.trans (by decide), hreason.trans (by decide)⟩

end Workings
