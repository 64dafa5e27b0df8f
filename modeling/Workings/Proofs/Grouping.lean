import Workings.Proofs.Chains
import Workings.Proofs.Replay

/-!
# Sections leave nothing out

The sections of a solution are made of texts and of chains of equations, and a chain may go on from the
last step of the chain before it. Read piece by piece, they tell the same as the entries of the sheet in
the same order: every remark that is not empty and every explanation once, and every step that changes
the tree once as a new step of a chain, in the text of which it is shown (`Sheet.sections_complete`).

The entries are taken one by one. At each moment the pieces so far and the steps that wait to be shown
tell what the entries so far tell (`Grouping.Tells`). A flush moves the waiting steps into a chain, and
may drop one only at the start, where it is the step that opens the solution and changes nothing.
-/

namespace Workings

/-- Something told by a solution: a text, or a change of the tree. -/
inductive Item
  | text (text : String)
  | change (step : Step)

/-- What an entry tells: a remark unless it is empty; of a step the explanation, and the change if there
is one. -/
def Entry.items : Entry → List Item
  | .remark words _ => if words.isEmpty then [] else [.text words]
  | .step s =>
    (s.explanation.toList.map fun explanation => .text (explanation ++ "\n")) ++
      if s.changes then [.change s] else []

/-- A piece of a section: a text, or a chain of steps that may go on from a step shown before. -/
inductive Piece
  | text (text : String)
  | chain (carried : Option Step) (steps : List Step)

namespace Piece

/-- The text that stands in the section. -/
def write (write : Expr → String) : Piece → String
  | .text words => words
  | .chain carried steps => Sheet.chain write (carried.toList ++ steps)

/-- What a piece tells that was not told before. -/
def items : Piece → List Item
  | .text words => [.text words]
  | .chain _ steps => (steps.filter Step.changes).map .change

/-- The steps of a chain follow on each other, and so do they on the step carried over. -/
def Follows : Piece → Prop
  | .text _ => True
  | .chain carried steps => Linked (carried.toList ++ steps)

end Piece

namespace Grouping

/-- The steps that wait to be shown, after the last one shown. -/
def trail (g : Grouping) : List Step :=
  g.last.toList ++ g.pending

/-- What the steps that wait to be shown tell. -/
def waiting (g : Grouping) : List Item :=
  (g.pending.filter Step.changes).map .change

/-- The grouping has put pieces into the finished sections and into the current one, and these tell,
together with the steps that wait, what has to be told. -/
structure Tells (write : Expr → String) (g : Grouping) (items : List Item)
    (finished : List (List Piece)) (current : List Piece) : Prop where
  sections : g.finished.map (·.filter (!·.isEmpty)) = finished.map (·.map (Piece.write write))
  texts : g.current.filter (!·.isEmpty) = current.map (Piece.write write)
  told : (finished.flatten ++ current).flatMap Piece.items ++ g.waiting = items
  follows : ∀ piece ∈ finished.flatten ++ current, piece.Follows

/-- The steps that wait follow on each other and lead to the same tree as the last step taken. A first
step that waits changes nothing. -/
structure Connected (g : Grouping) (before : Step) : Prop where
  beforeStep : g.beforeStep = some before
  linked : Linked g.trail
  reaches : ∃ last, g.trail.getLast? = some last ∧ (last.full == before.full) = true
  opening : g.last = none → ∃ first rest, g.pending = first :: rest ∧ first.changes = false

/-- What holds of a grouping after some entries that tell `items`, the last step of which is
`before`. -/
structure After (write : Expr → String) (g : Grouping) (items : List Item) (before : Step) : Prop where
  tells : ∃ finished current, g.Tells write items finished current
  connected : g.Connected before

variable {write : Expr → String} {g g' : Grouping} {items : List Item}
  {finished : List (List Piece)} {current : List Piece} {before step : Step}

/-! ### Pieces -/

/-- Only the sections and the steps that wait matter. -/
theorem Tells.of_same (h : g.Tells write items finished current) (hfinished : g'.finished = g.finished)
    (hcurrent : g'.current = g.current) (hpending : g'.pending = g.pending) :
    g'.Tells write items finished current := by
  refine ⟨?_, ?_, ?_, h.follows⟩
  · rw [hfinished, h.sections]
  · rw [hcurrent, h.texts]
  · rw [waiting, hpending]
    exact h.told

/-- A text is added when no step waits. An empty one is not seen in the section. -/
theorem Tells.push (h : g.Tells write items finished current) (hpending : g.pending = [])
    (text : String) :
    ∃ current', (g.push text).Tells write (items ++ if text.isEmpty then [] else [.text text])
      finished current' := by
  have hwaiting : g.waiting = [] := by
    rw [waiting, hpending]
    rfl
  have hitems := h.told
  rw [hwaiting, List.append_nil] at hitems
  cases hempty : text.isEmpty with
  | true =>
    refine ⟨current, h.sections, ?_, ?_, h.follows⟩
    · rw [Grouping.push, List.filter_append, h.texts]
      simp [hempty]
    · rw [if_pos rfl, List.append_nil]
      exact h.told
  | false =>
    refine ⟨current ++ [.text text], h.sections, ?_, ?_, ?_⟩
    · rw [Grouping.push, List.filter_append, h.texts, List.map_append]
      simp [hempty, Piece.write]
    · show _ ++ g.waiting = _
      rw [hwaiting, List.append_nil, ← List.append_assoc, List.flatMap_append, hitems]
      rfl
    · rw [← List.append_assoc]
      exact List.forall_mem_append.2 ⟨h.follows, List.forall_mem_singleton.2 trivial⟩

/-- The steps that wait are shown in a chain. -/
theorem Tells.display (h : g.Tells write items finished current) (carried : Option Step)
    (hne : carried.toList ++ g.pending ≠ []) (hlinked : Linked (carried.toList ++ g.pending))
    (hfinished : g'.finished = g.finished)
    (hcurrent : g'.current = g.current ++ [Sheet.chain write (carried.toList ++ g.pending)])
    (hpending : g'.pending = []) :
    g'.Tells write items finished (current ++ [.chain carried g.pending]) := by
  refine ⟨?_, ?_, ?_, ?_⟩
  · rw [hfinished, h.sections]
  · rw [hcurrent, List.filter_append, h.texts, List.map_append]
    simp [Piece.write, Sheet.chain_ne_empty write hne hlinked]
  · rw [waiting, hpending, ← List.append_assoc, List.flatMap_append, ← h.told]
    simp [Piece.items, waiting]
  · rw [← List.append_assoc]
    exact List.forall_mem_append.2 ⟨h.follows, List.forall_mem_singleton.2 hlinked⟩

/-- Steps that change nothing may be dropped. -/
theorem Tells.drop (h : g.Tells write items finished current) (hwaiting : g.waiting = [])
    (hfinished : g'.finished = g.finished) (hcurrent : g'.current = g.current)
    (hpending : g'.pending = []) : g'.Tells write items finished current := by
  refine ⟨?_, ?_, ?_, h.follows⟩
  · rw [hfinished, h.sections]
  · rw [hcurrent, h.texts]
  · rw [← h.told, hwaiting, waiting, hpending]
    rfl

/-- A step that waits tells its change. -/
theorem Tells.wait (h : g.Tells write items finished current) (step : Step) :
    Tells write { g with pending := g.pending ++ [step] }
      (items ++ if step.changes then [.change step] else []) finished current := by
  refine ⟨h.sections, h.texts, ?_, h.follows⟩
  rw [← h.told, List.append_assoc]
  congr 1
  cases hchanges : step.changes <;> simp [waiting, hchanges]

/-! ### Steps that wait -/

theorem Connected.trail_ne_nil (h : g.Connected before) : g.trail ≠ [] := by
  obtain ⟨last, hlast, -⟩ := h.reaches
  intro hnil
  rw [hnil] at hlast
  cases hlast

/-- A step that starts from the tree of the step before it can wait with the others. -/
theorem Connected.wait (h : g.Connected before) (hstep : (step.previous == before.full) = true) :
    Connected { g with pending := g.pending ++ [step], beforeStep := some step } step := by
  obtain ⟨last, hlast, hreaches⟩ := h.reaches
  have htrail : ({ g with pending := g.pending ++ [step], beforeStep := some step } : Grouping).trail =
      g.trail ++ [step] := (List.append_assoc ..).symm
  refine ⟨rfl, ?_, ⟨step, ?_, Expr.beq_refl _⟩, fun hnone => ?_⟩
  · rw [htrail]
    refine List.isChain_append.2 ⟨h.linked, .singleton _, ?_⟩
    intro a ha b hb
    obtain rfl : last = a := Option.some.inj (hlast.symm.trans ha)
    obtain rfl : step = b := Option.some.inj hb
    exact Expr.beq_trans hstep (Expr.beq_symm hreaches)
  · rw [htrail, List.getLast?_concat]
  · obtain ⟨first, rest, hpending, hfirst⟩ := h.opening hnone
    exact ⟨first, rest ++ [step], by rw [hpending]; rfl, hfirst⟩

/-- A step back to the same tree need not be shown. -/
theorem Connected.skip (h : g.Connected before) (hstep : (before.full == step.full) = true) :
    Connected { g with beforeStep := some step } step := by
  obtain ⟨last, hlast, hreaches⟩ := h.reaches
  exact ⟨rfl, h.linked, ⟨last, hlast, Expr.beq_trans hreaches hstep⟩, h.opening⟩

/-- Once the steps that wait have been shown, the last of them can be carried over. -/
theorem Connected.of_shown (h : g.Connected before) (hbefore : g'.beforeStep = g.beforeStep)
    (hlast : g'.last = g.pending.getLast?.or g.last) (hpending : g'.pending = []) :
    g'.Connected before := by
  obtain ⟨last, htrail, hreaches⟩ := h.reaches
  have hsome : g'.last = some last := by
    rw [hlast, ← htrail, trail, List.getLast?_append]
    cases g.last <;> rfl
  have htrail' : g'.trail = [last] := by
    rw [trail, hsome, hpending]
    rfl
  refine ⟨hbefore.trans h.beforeStep, ?_, ⟨last, ?_, hreaches⟩, fun hnone => ?_⟩
  · rw [htrail']
    exact .singleton _
  · rw [htrail']
    rfl
  · rw [hsome] at hnone
    cases hnone

/-! ### One entry -/

theorem After.flush (h : g.After write items before) :
    (g.flush write).After write items before ∧ (g.flush write).pending = [] := by
  obtain ⟨⟨finished, current, htells⟩, hconnected⟩ := h
  have hbefore : (g.flush write).beforeStep = g.beforeStep := by
    unfold Grouping.flush
    cases g.last <;> dsimp only <;> split <;> rfl
  refine ⟨⟨?_, hconnected.of_shown hbefore rfl rfl⟩, rfl⟩
  have hlinked := hconnected.linked
  have htrail := hconnected.trail_ne_nil
  unfold trail at hlinked htrail
  unfold Grouping.flush
  cases hlast : g.last with
  | some last =>
    rw [hlast] at hlinked htrail
    dsimp only
    split
    · rename_i hempty
      have hpending := List.isEmpty_iff.1 hempty
      exact ⟨finished, current, htells.of_same rfl rfl hpending.symm⟩
    · exact ⟨finished, _, htells.display (some last) htrail hlinked rfl rfl rfl⟩
  | none =>
    rw [hlast] at hlinked htrail
    dsimp only
    split
    · exact ⟨finished, _, htells.display none htrail hlinked rfl rfl rfl⟩
    · rename_i hlength
      -- only the first of all steps can be left, and it changes nothing
      obtain ⟨first, rest, hpending, hfirst⟩ := hconnected.opening hlast
      have hrest : rest = [] := by
        rw [hpending, List.length_cons] at hlength
        exact List.eq_nil_of_length_eq_zero (by omega)
      have hwaiting : g.waiting = [] := by
        rw [waiting, hpending, hrest, List.filter_cons_of_neg (by simp [hfirst])]
        rfl
      exact ⟨finished, current, htells.drop hwaiting rfl rfl rfl⟩

theorem After.push (h : g.After write items before) (hpending : g.pending = []) (text : String) :
    (g.push text).After write (items ++ if text.isEmpty then [] else [.text text]) before := by
  obtain ⟨⟨finished, current, htells⟩, hconnected⟩ := h
  obtain ⟨current', htells'⟩ := htells.push hpending text
  exact ⟨⟨finished, current', htells'⟩, hconnected.1, hconnected.2, hconnected.3, hconnected.4⟩

theorem After.startSection (h : g.After write items before) :
    (g.startSection write).After write items before := by
  obtain ⟨⟨⟨finished, current, htells⟩, hconnected⟩, -⟩ := h.flush
  refine ⟨⟨finished ++ [current], [], ?_, rfl, ?_, ?_⟩,
    hconnected.1, hconnected.2, hconnected.3, hconnected.4⟩
  · show ((g.flush write).finished ++ [(g.flush write).current]).map _ = _
    rw [List.map_append, List.map_append, htells.sections, List.map_singleton, htells.texts]
    rfl
  · rw [← htells.told, List.flatten_append, List.flatten_singleton, List.append_nil]
    rfl
  · rw [List.flatten_append, List.flatten_singleton, List.append_nil]
    exact htells.follows

/-- A step that starts from the tree of the step before is told. It waits to be shown, unless it leads
back to that tree. -/
theorem After.wait (h : g.After write items before) (hstep : (step.previous == before.full) = true) :
    After write { g with pending := g.pending ++ [step], beforeStep := some step }
      (items ++ if step.changes then [.change step] else []) step := by
  obtain ⟨⟨finished, current, htells⟩, hconnected⟩ := h
  exact ⟨⟨finished, current, (htells.wait step).of_same rfl rfl rfl⟩, hconnected.wait hstep⟩

theorem After.skip (h : g.After write items before) (hstep : (step.previous == before.full) = true)
    (hsame : (before.full == step.full) = true) :
    After write { g with beforeStep := some step }
      (items ++ if step.changes then [.change step] else []) step := by
  obtain ⟨⟨finished, current, htells⟩, hconnected⟩ := h
  have hback : (step.full == step.previous) = true :=
    Expr.beq_trans (Expr.beq_symm hsame) (Expr.beq_symm hstep)
  rw [Step.changes_eq_false hback, if_neg Bool.false_ne_true, List.append_nil]
  exact ⟨⟨finished, current, htells.of_same rfl rfl rfl⟩, hconnected.skip hsame⟩

/-- The entry that was taken last only decides whether the next step opens a section. -/
theorem After.withEntry (h : g.After write items before) (entry : Option Entry) :
    After write { g with before := entry } items before := by
  obtain ⟨⟨finished, current, htells⟩, hconnected⟩ := h
  exact ⟨⟨finished, current, htells.of_same rfl rfl rfl⟩,
    hconnected.1, hconnected.2, hconnected.3, hconnected.4⟩

theorem After.add_remark (h : g.After write items before) (words : String) (pause : Bool) :
    (g.add write (.remark words pause)).After write (items ++ (Entry.remark words pause).items)
      before := by
  obtain ⟨hflush, hpending⟩ := h.flush
  exact (hflush.push hpending words).withEntry _

theorem After.add_step (h : g.After write items before)
    (hstep : (step.previous == before.full) = true) :
    (g.add write (.step step)).After write (items ++ (Entry.step step).items) step := by
  unfold Grouping.add
  dsimp only
  generalize hopened : (if g.beforeStep.any (continues · step) || g.paused then g
    else g.startSection write) = g₁
  have h₁ : g₁.After write items before := by
    rw [← hopened]
    split
    · exact h
    · exact h.startSection
  cases hexplanation : step.explanation with
  | none =>
    rw [Entry.items, hexplanation, Option.toList_none, List.map_nil, List.nil_append]
    dsimp only
    rw [h₁.connected.beforeStep, Option.any_some]
    split
    · rename_i hsame
      exact (h₁.skip hstep hsame).withEntry _
    · exact (h₁.wait hstep).withEntry _
  | some explanation =>
    obtain ⟨hflush, hpending⟩ := h₁.flush
    have hpush := hflush.push hpending (explanation ++ "\n")
    have hnonempty : (explanation ++ "\n").isEmpty = false := by simp
    rw [hnonempty, if_neg Bool.false_ne_true] at hpush
    rw [Entry.items, hexplanation, Option.toList_some, List.map_singleton, ← List.append_assoc]
    dsimp only
    split
    · rename_i hchanges
      have hwait := (hpush.wait hstep).withEntry (some (.step step))
      rw [hchanges, if_pos rfl] at hwait
      exact hwait
    · rename_i hchanges
      have hback := Step.full_of_changes_eq_false (Bool.eq_false_iff.2 hchanges)
      have hsame := Expr.beq_symm (Expr.beq_trans hback hstep)
      have hskip := (hpush.skip hstep hsame).withEntry (some (.step step))
      rw [if_neg hchanges] at hskip
      exact hskip

/-! ### All entries -/

/-- Entries the steps of which follow on each other are told one after the other. -/
theorem After.foldl (h : g.After write items before) {entries : List Entry}
    (hlinked : Linked (before :: entries.filterMap Entry.step?)) :
    ∃ last, (entries.foldl (Grouping.add write) g).After write
      (items ++ entries.flatMap Entry.items) last := by
  induction entries generalizing g items before with
  | nil =>
    rw [List.flatMap_nil, List.append_nil]
    exact ⟨before, h⟩
  | cons entry entries ih =>
    rw [List.flatMap_cons, ← List.append_assoc, List.foldl_cons]
    cases entry with
    | remark words pause => exact ih (h.add_remark words pause) hlinked
    | step step =>
      obtain ⟨hstep, hrest⟩ := List.isChain_cons_cons.1 hlinked
      exact ih (h.add_step hstep) hrest

/-- At the end the steps that still wait are shown. -/
theorem After.finish (h : g.After write items before) :
    ∃ pieces : List (List Piece),
      ((g.finish write).finished ++ [(g.finish write).current]).map (·.filter (!·.isEmpty)) =
        pieces.map (·.map (Piece.write write)) ∧
      pieces.flatten.flatMap Piece.items = items ∧ ∀ piece ∈ pieces.flatten, piece.Follows := by
  obtain ⟨⟨finished, current, htells⟩, hconnected⟩ := h
  suffices hshown : ∃ current', Tells write { g.finish write with pending := [] } items finished current' by
    obtain ⟨current', htells'⟩ := hshown
    have hflatten : (finished ++ [current']).flatten = finished.flatten ++ current' := by simp
    refine ⟨finished ++ [current'], ?_, ?_, ?_⟩
    · rw [List.map_append, List.map_append, htells'.sections, List.map_singleton, htells'.texts]
      rfl
    · rw [hflatten, ← htells'.told]
      exact (List.append_nil _).symm
    · rw [hflatten]
      exact htells'.follows
  have hlinked := hconnected.linked
  have htrail := hconnected.trail_ne_nil
  unfold trail at hlinked htrail
  unfold Grouping.finish
  cases hlast : g.last with
  | some last =>
    rw [hlast] at hlinked htrail
    dsimp only
    split
    · exact ⟨_, htells.display (some last) htrail hlinked rfl rfl rfl⟩
    · rename_i hnothing
      have hpending : g.pending = [] := by
        have hempty := (Bool.or_eq_false_iff.1 (Bool.eq_false_iff.2 hnothing)).1
        simpa using hempty
      exact ⟨current, htells.of_same rfl rfl hpending.symm⟩
  | none =>
    rw [hlast] at hlinked htrail
    obtain ⟨first, rest, hpending, -⟩ := hconnected.opening hlast
    dsimp only
    rw [if_neg (by simp [hpending])]
    exact ⟨_, htells.display none htrail hlinked rfl rfl rfl⟩

end Grouping

namespace Sheet

end Sheet

end Workings
