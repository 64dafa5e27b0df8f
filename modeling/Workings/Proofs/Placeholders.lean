import Mathlib.Data.List.Basic
import Mathlib.Data.List.Infix
import Workings.Message.Template

/-!
# Placeholders

A template is filled in everywhere at once. What takes the place of a character hangs only on the template: a
placeholder that starts there is replaced by its value, a character inside of one goes with it, and any other
character stays (`Contributes`). As long as names have no braces in them, placeholders do not overlap
(`OccursAt.disjoint`), so this determines one text, and the scan for placeholders from left to right finds
it (`Template.fill_eq_iff`).

The scan carries the number of characters that still belong to the placeholder found last (`Scanned`).
-/

namespace Workings

namespace Template

/-- A name in braces. -/
def slot (name : String) : List Char :=
  '\x7b' :: (name.toList ++ ['\x7d'])

theorem length_slot (name : String) : (slot name).length = name.toList.length + 2 := by
  simp [slot]

/-- A name in braces stands at a place of a text. -/
def OccursAt (text : List Char) (place : ℕ) (name : String) : Prop :=
  slot name <+: text.drop place

/-- What becomes of the character at a place of a text that is filled in. -/
inductive Contributes (payload : Payload) (text : List Char) (place : ℕ) : List Char → Prop
  | value {name value : String} (h : OccursAt text place name)
      (hvalue : payload.lookup name = some value) : Contributes payload text place value.toList
  | inside {name value : String} {start : ℕ} (h : OccursAt text start name)
      (hvalue : payload.lookup name = some value) (hstart : start < place)
      (hend : place < start + (slot name).length) : Contributes payload text place []
  | kept {c : Char} (hc : text[place]? = some c)
      (h : ∀ name value start, payload.lookup name = some value → OccursAt text start name →
        start ≤ place → start + (slot name).length ≤ place) : Contributes payload text place [c]

/-- A text that is filled in: what its characters become, one after the other. -/
def Filled (payload : Payload) (text result : List Char) : Prop :=
  ∃ pieces : List (List Char), pieces.length = text.length ∧
    (∀ place piece, pieces[place]? = some piece → Contributes payload text place piece) ∧
    result = pieces.flatten

/-- A name that cannot be taken for anything but what stands between two braces. -/
def IsName (name : String) : Prop :=
  '\x7b' ∉ name.toList ∧ '\x7d' ∉ name.toList

instance (name : String) : Decidable (IsName name) :=
  inferInstanceAs (Decidable ('\x7b' ∉ name.toList ∧ '\x7d' ∉ name.toList))

/-! ### Occurrences -/

theorem takeWhile_brace {name : String} (hname : '\x7d' ∉ name.toList) (rest : List Char) :
    (name.toList ++ '\x7d' :: rest).takeWhile (· != '\x7d') = name.toList := by
  have hkept : ∀ c ∈ name.toList, (c != '\x7d') = true := fun c hc =>
    bne_iff_ne.2 fun heq => hname (heq ▸ hc)
  rw [List.takeWhile_append_of_pos hkept, List.takeWhile_cons_of_neg (by decide), List.append_nil]

/-- What stands before the first closing brace, if there is one. -/
theorem exists_takeWhile_brace {chars : List Char}
    (h : (chars.takeWhile (· != '\x7d')).length < chars.length) :
    ∃ rest, chars = chars.takeWhile (· != '\x7d') ++ '\x7d' :: rest := by
  have hsplit : chars.takeWhile (· != '\x7d') ++ chars.dropWhile (· != '\x7d') = chars :=
    List.takeWhile_append_dropWhile
  have hhead := List.head?_dropWhile_not (· != '\x7d') chars
  cases hdrop : chars.dropWhile (· != '\x7d') with
  | nil =>
    rw [hdrop, List.append_nil] at hsplit
    rw [hsplit] at h
    exact (Nat.lt_irrefl _ h).elim
  | cons c rest =>
    rw [hdrop] at hhead hsplit
    obtain rfl : c = '\x7d' := by simpa using hhead
    exact ⟨rest, hsplit.symm⟩

namespace OccursAt

variable {text : List Char} {place place' : ℕ} {name name' : String}

theorem getElem?_eq (h : OccursAt text place name) {k : ℕ} (hk : k < (slot name).length) :
    text[place + k]? = (slot name)[k]? := by
  obtain ⟨rest, hrest⟩ := h
  rw [← List.getElem?_drop, ← hrest, List.getElem?_append_left hk]

/-- Two names in braces at different places do not overlap, since the brace that opens the second one is not in
the first one. -/
theorem disjoint (h : OccursAt text place name) (h' : OccursAt text place' name') (hname : IsName name)
    (hlt : place < place') : place + (slot name).length ≤ place' := by
  by_contra hinside
  obtain ⟨k, rfl⟩ : ∃ k, place' = place + (k + 1) := ⟨place' - place - 1, by omega⟩
  have hopen : text[place + (k + 1)]? = some '\x7b' := by
    have hfirst := h'.getElem?_eq (k := 0) (by simp [slot])
    exact hfirst
  rw [h.getElem?_eq (by omega)] at hopen
  have hmem : '\x7b' ∈ name.toList ++ ['\x7d'] := List.mem_of_getElem? (i := k) hopen
  rcases List.mem_append.1 hmem with hmem | hmem
  · exact hname.1 hmem
  · exact absurd hmem (by decide)

/-- There is one name at most in the braces at a place. -/
theorem name_eq (h : OccursAt text place name) (h' : OccursAt text place name') (hname : IsName name)
    (hname' : IsName name') : name = name' := by
  obtain ⟨rest, hrest⟩ := h
  obtain ⟨rest', hrest'⟩ := h'
  rw [← hrest'] at hrest
  have htail : name.toList ++ '\x7d' :: rest = name'.toList ++ '\x7d' :: rest' := by
    simpa [slot] using hrest
  refine String.toList_inj.1 ?_
  rw [← takeWhile_brace hname.2 rest, htail, takeWhile_brace hname'.2]

end OccursAt

/-! ### The scan -/

theorem mem_names_of_lookup {payload : Payload} {name value : String} (h : payload.lookup name = some value) :
    name ∈ payload.map Prod.fst := by
  obtain ⟨entry, hentry, hname⟩ := List.lookup_isSome_iff.1 (Option.isSome_of_eq_some h)
  rw [beq_iff_eq.1 hname]
  exact List.mem_map_of_mem hentry

/-- What is found at the start of a text is a name of the payload and a closing brace. -/
theorem placeholder?_eq_some_iff {payload : Payload} {chars value : List Char} {length : ℕ} :
    placeholder? payload chars = some (value, length) ↔
      ∃ name text, '\x7d' ∉ name.toList ∧ name.toList ++ ['\x7d'] <+: chars ∧
        payload.lookup name = some text ∧ value = text.toList ∧ length = name.toList.length := by
  unfold placeholder?
  extract_lets found
  constructor
  · intro h
    split at h
    · rename_i hlength
      obtain ⟨text, htext, hpair⟩ := Option.map_eq_some_iff.1 h
      obtain ⟨rest, hrest⟩ := exists_takeWhile_brace hlength
      obtain ⟨rfl, rfl⟩ := Prod.mk.inj hpair
      refine ⟨String.ofList found, text, ?_, ⟨rest, ?_⟩, htext, rfl, by rw [String.toList_ofList]⟩
      · rw [String.toList_ofList]
        exact fun hmem => by simpa using List.all_eq_true.1 List.all_takeWhile _ hmem
      · rw [String.toList_ofList, List.append_assoc]
        exact hrest.symm
    · cases h
  · rintro ⟨name, text, hname, ⟨rest, rfl⟩, hlookup, rfl, rfl⟩
    have hfound : found = name.toList := by
      show ((name.toList ++ ['\x7d'] ++ rest).takeWhile (· != '\x7d')) = _
      rw [List.append_assoc]
      exact takeWhile_brace hname rest
    rw [hfound, if_pos (by simp), String.ofList_toList, hlookup]
    rfl

/-- How far a scan has come: some characters from here on still belong to a placeholder that started before, and no
other placeholder that started before reaches farther. -/
structure Scanned (payload : Payload) (text : List Char) (place more : ℕ) : Prop where
  inside : 0 < more → ∃ start name value, start < place ∧ payload.lookup name = some value ∧
    OccursAt text start name ∧ start + (slot name).length = place + more
  reach : ∀ start name value, start < place → payload.lookup name = some value →
    OccursAt text start name → start + (slot name).length ≤ place + more

section

variable {payload : Payload} {text : List Char} {place more : ℕ}

theorem Scanned.start (payload : Payload) (text : List Char) : Scanned payload text 0 0 where
  inside h := absurd h (Nat.lt_irrefl 0)
  reach _ _ _ h := absurd h (Nat.not_lt_zero _)

/-- A character that starts no placeholder stays. -/
theorem Scanned.keep (h : Scanned payload text place 0) {c : Char} (hc : text[place]? = some c)
    (hnone : ∀ name value, payload.lookup name = some value → ¬ OccursAt text place name) :
    Contributes payload text place [c] ∧ Scanned payload text (place + 1) 0 := by
  have hreach (name value : String) (start : ℕ) (hvalue : payload.lookup name = some value)
      (hoccurs : OccursAt text start name) (hstart : start ≤ place) : start + (slot name).length ≤ place := by
    rcases Nat.lt_or_eq_of_le hstart with hlt | rfl
    · exact h.reach start name value hlt hvalue hoccurs
    · exact (hnone name value hvalue hoccurs).elim
  refine ⟨.kept hc hreach, ⟨fun hpos => absurd hpos (Nat.lt_irrefl 0), ?_⟩⟩
  intro start name value hstart hvalue hoccurs
  exact (hreach name value start hvalue hoccurs (by omega)).trans (Nat.le_succ place)

section

variable (hnames : ∀ name ∈ payload.map Prod.fst, IsName name)

include hnames

/-- A character of a placeholder that is filled in goes with it. -/
theorem Scanned.skip (h : Scanned payload text place (more + 1)) :
    Contributes payload text place [] ∧ Scanned payload text (place + 1) more := by
  obtain ⟨start, name, value, hstart, hvalue, hoccurs, hend⟩ := h.inside (Nat.succ_pos more)
  have hname := hnames _ (mem_names_of_lookup hvalue)
  refine ⟨.inside hoccurs hvalue hstart (by omega), ⟨fun _ => ?_, ?_⟩⟩
  · exact ⟨start, name, value, by omega, hvalue, hoccurs, by omega⟩
  · intro other name' value' hother hvalue' hoccurs'
    rcases Nat.lt_or_ge other place with hlt | hge
    · have := h.reach other name' value' hlt hvalue' hoccurs'
      omega
    · have := hoccurs.disjoint hoccurs' hname (by omega)
      omega

/-- A placeholder that starts here is replaced by its value. -/
theorem Scanned.value (h : Scanned payload text place 0)
    {name value : String} (hvalue : payload.lookup name = some value) (hoccurs : OccursAt text place name) :
    Contributes payload text place value.toList ∧ Scanned payload text (place + 1) (name.toList.length + 1) := by
  have hlength := length_slot name
  have hname := hnames _ (mem_names_of_lookup hvalue)
  refine ⟨.value hoccurs hvalue, ⟨fun _ => ?_, ?_⟩⟩
  · exact ⟨place, name, value, by omega, hvalue, hoccurs, by omega⟩
  · intro other name' value' hother hvalue' hoccurs'
    rcases Nat.lt_or_ge other place with hlt | hge
    · have := h.reach other name' value' hlt hvalue' hoccurs'
      omega
    · obtain rfl : other = place := by omega
      rw [hoccurs'.name_eq hoccurs (hnames _ (mem_names_of_lookup hvalue')) hname]
      omega

/-- What the scan looks for at a brace is a placeholder that starts there. -/
theorem opens_iff {c : Char} {rest found : List Char} {length : ℕ} (hdrop : text.drop place = c :: rest) :
    (if c = '\x7b' then placeholder? payload rest else none) = some (found, length) ↔
      ∃ name value, payload.lookup name = some value ∧ OccursAt text place name ∧ found = value.toList ∧
        length = name.toList.length := by
  unfold OccursAt slot
  rw [hdrop]
  split
  · rename_i hc
    rw [placeholder?_eq_some_iff, hc]
    simp only [List.prefix_cons_inj]
    constructor
    · rintro ⟨name, value, -, hbegins, hvalue, hfound, hlength⟩
      exact ⟨name, value, hvalue, hbegins, hfound, hlength⟩
    · rintro ⟨name, value, hvalue, hbegins, hfound, hlength⟩
      exact ⟨name, value, (hnames _ (mem_names_of_lookup hvalue)).2, hbegins, hvalue, hfound, hlength⟩
  · rename_i hc
    refine ⟨fun h => (nomatch h), ?_⟩
    rintro ⟨name, value, -, ⟨tail, htail⟩, -⟩
    exact (hc (List.cons.inj htail).1.symm).elim

/-- One character of the scan. -/
theorem Scanned.step (h : Scanned payload text place more) {c : Char} {rest : List Char}
    (hdrop : text.drop place = c :: rest) :
    ∃ piece more', Contributes payload text place piece ∧ Scanned payload text (place + 1) more' ∧
      fillChars payload more (c :: rest) = piece ++ fillChars payload more' rest := by
  cases more with
  | succ more =>
    obtain ⟨hpiece, hnext⟩ := h.skip hnames
    exact ⟨[], more, hpiece, hnext, rfl⟩
  | zero =>
    have hc : text[place]? = some c := by
      rw [← List.head?_drop, hdrop]
      rfl
    rw [fillChars]
    split
    · rename_i found length hopens
      obtain ⟨name, value, hvalue, hoccurs, rfl, rfl⟩ := (opens_iff hnames hdrop).1 hopens
      obtain ⟨hpiece, hnext⟩ := h.value hnames hvalue hoccurs
      exact ⟨value.toList, name.toList.length + 1, hpiece, hnext, rfl⟩
    · rename_i hnone
      obtain ⟨hpiece, hnext⟩ := h.keep hc fun name value hvalue hoccurs => by
        rw [(opens_iff hnames hdrop).2 ⟨name, value, hvalue, hoccurs, rfl, rfl⟩] at hnone
        cases hnone
      exact ⟨[c], 0, hpiece, hnext, rfl⟩

/-- The scan of the rest of a text fills it in. -/
theorem Scanned.pieces {rest : List Char} (h : Scanned payload text place more)
    (hdrop : text.drop place = rest) :
    ∃ pieces : List (List Char), pieces.length = rest.length ∧
      (∀ k piece, pieces[k]? = some piece → Contributes payload text (place + k) piece) ∧
      fillChars payload more rest = pieces.flatten := by
  induction rest generalizing place more with
  | nil => exact ⟨[], rfl, fun _ _ hpiece => (nomatch hpiece), by rw [fillChars]; rfl⟩
  | cons c rest ih =>
    obtain ⟨piece, more', hpiece, hnext, hfill⟩ := h.step hnames hdrop
    have hdrop' : text.drop (place + 1) = rest := by
      rw [← List.drop_drop, hdrop, List.drop_one, List.tail_cons]
    obtain ⟨pieces, hlength, hpieces, hrest⟩ := ih hnext hdrop'
    refine ⟨piece :: pieces, by rw [List.length_cons, List.length_cons, hlength], fun k other hother => ?_, ?_⟩
    · cases k with
      | zero =>
        cases hother
        exact hpiece
      | succ k =>
        rw [← Nat.add_assoc, Nat.add_right_comm]
        exact hpieces k other hother
    · rw [hfill, hrest, List.flatten_cons]

/-- At every place there is one thing that can become of a character. -/
theorem Contributes.unique {piece piece' : List Char}
    (h : Contributes payload text place piece) (h' : Contributes payload text place piece') : piece = piece' := by
  cases h with
  | value hoccurs hvalue =>
    have hname := hnames _ (mem_names_of_lookup hvalue)
    cases h' with
    | value hoccurs' hvalue' =>
      have hsame := hoccurs.name_eq hoccurs' hname (hnames _ (mem_names_of_lookup hvalue'))
      rw [hsame, hvalue'] at hvalue
      cases hvalue
      rfl
    | inside hoccurs' hvalue' hstart hend =>
      have := hoccurs'.disjoint hoccurs (hnames _ (mem_names_of_lookup hvalue')) hstart
      omega
    | kept _ hreach =>
      have := hreach _ _ _ hvalue hoccurs le_rfl
      rw [length_slot] at this
      omega
  | inside hoccurs hvalue hstart hend =>
    cases h' with
    | value hoccurs' _ =>
      have := hoccurs.disjoint hoccurs' (hnames _ (mem_names_of_lookup hvalue)) hstart
      omega
    | inside => rfl
    | kept _ hreach =>
      have := hreach _ _ _ hvalue hoccurs hstart.le
      omega
  | kept hc hreach =>
    cases h' with
    | value hoccurs hvalue =>
      have := hreach _ _ _ hvalue hoccurs le_rfl
      rw [length_slot] at this
      omega
    | inside hoccurs hvalue hstart hend =>
      have := hreach _ _ _ hvalue hoccurs hstart.le
      omega
    | kept hc' =>
      rw [hc] at hc'
      cases hc'
      rfl

end

/-- Filling in a template is one simultaneous substitution: every name of the payload that stands in braces in the
template is replaced by its first value, all other characters stay, and what is put in is not looked at. -/
theorem fill_eq_iff (hnames : ∀ name ∈ payload.map Prod.fst, IsName name) (template result : String) :
    fill template payload = result ↔ Filled payload template.toList result.toList := by
  obtain ⟨pieces, hlength, hpieces, hfill⟩ :=
    (Scanned.start payload template.toList).pieces hnames List.drop_zero
  simp only [Nat.zero_add] at hpieces
  unfold fill
  constructor
  · rintro rfl
    exact ⟨pieces, hlength, hpieces, by rw [String.toList_ofList, hfill]⟩
  · rintro ⟨pieces', hlength', hpieces', hresult⟩
    have hsame : pieces = pieces' := by
      refine List.ext_getElem (hlength.trans hlength'.symm) fun place h h' => ?_
      exact (hpieces place _ (List.getElem?_eq_getElem h)).unique hnames
        (hpieces' place _ (List.getElem?_eq_getElem h'))
    rw [← String.toList_inj, String.toList_ofList, hfill, hsame, hresult]

/-- `a` and `b` have values, `a` has a second one, and the value of `a` looks like a placeholder itself. -/
def samplePayload : Payload :=
  [("a", "\x7bb\x7d"), ("b", "3"), ("a", "4")]

/-- Placeholders in braces and after an opening brace, and groups that are none. -/
def sampleTemplate : String :=
  "$x^\x7b2\x7d + \x7b\x7ba\x7d\x7d$ \x7bmissing\x7d \x7b\x7bb\x7d"

/-- Every brace that is not part of a placeholder stays, and `b` is not filled in where it comes from a value. -/
theorem fill_eq_iff_sample :
    (∀ name ∈ samplePayload.map Prod.fst, IsName name) ∧
    fill sampleTemplate samplePayload = "$x^\x7b2\x7d + \x7b\x7bb\x7d\x7d$ \x7bmissing\x7d \x7b3" ∧
    Filled samplePayload sampleTemplate.toList
      "$x^\x7b2\x7d + \x7b\x7bb\x7d\x7d$ \x7bmissing\x7d \x7b3".toList := by
  have hnames : ∀ name ∈ samplePayload.map Prod.fst, IsName name := by decide
  have hfill : fill sampleTemplate samplePayload =
      "$x^\x7b2\x7d + \x7b\x7bb\x7d\x7d$ \x7bmissing\x7d \x7b3" := by decide +kernel
  exact ⟨hnames, hfill, (fill_eq_iff hnames _ _).1 hfill⟩

end

end Template

end Workings
