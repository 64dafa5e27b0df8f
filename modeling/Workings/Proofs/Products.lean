import Workings.LongHand.Multiplication
import Workings.Proofs.Digits
import Workings.Proofs.Strictness

/-!
# Products of integers are exact

Multiplication may take one step, be left to the calculator, split a factor close to a power of ten, or
be worked out at length from the partial products of the digits. `multiply_exact` says that the way does
not matter: whatever the options are, as long as they do not ask for an estimate, and whatever the sheet
is that the product stands on, the result is the product.

`Work.Delivers o w post` is what is followed through the ways: under the options `o` nothing but a change
of a missing part ends the work `w`, and `post` holds of its result.
-/

namespace Workings

/-! ### Work that only a missing part can end -/

namespace Work

variable {α β : Type} {o : Options} {post : α → Prop}

/-- An outcome under the options `o`: a result of which `post` holds, or the end at a change of a part
that does not occur. -/
inductive Delivered (o : Options) (post : α → Prop) : Except Fault α × Sheet → Prop
  | ok {a : α} {t : Sheet} (result : post a) (options : t.options = o) : Delivered o post (.ok a, t)
  | absent {part tree : Expr} {t : Sheet} : Delivered o post (.error (.absent part tree), t)

/-- Under the options `o` the work leaves the options as they are, and unless it ends at a change of a
part that does not occur it has a result of which `post` holds. -/
structure Delivers (o : Options) (w : Work α) (post : α → Prop) : Prop where
  run : ∀ s : Sheet, s.options = o → Delivered o post (exec w s)

/-- Work goes on from what the work before it has delivered. -/
theorem Delivered.bind {w : Work α} {f : α → Work β} {post' : β → Prop} {s : Sheet}
    (hw : Delivered o post (exec w s)) (hf : ∀ a, post a → Delivers o (f a) post') :
    Delivered o post' (exec (w >>= f) s) := by
  rcases hexec : exec w s with ⟨result, t⟩
  rw [hexec] at hw
  cases hw with
  | ok result options =>
    rw [exec_bind_ok hexec]
    exact (hf _ result).run t options
  | absent =>
    rw [exec_bind_error hexec]
    exact .absent

theorem Delivered.mono {post' : α → Prop} {outcome : Except Fault α × Sheet}
    (h : Delivered o post outcome) (hpost : ∀ a, post a → post' a) : Delivered o post' outcome := by
  cases h with
  | ok result options => exact .ok (hpost _ result) options
  | absent => exact .absent

/-- Work beside opened trees. -/
theorem Delivered.withBlock {trees : List Expr} {work : Nat → Work α} {s : Sheet}
    (h : Delivered o post (exec (work s.blocks.length) { s with blocks := s.blocks ++ [trees] })) :
    Delivered o post (exec (withBlock trees work) s) := by
  rw [exec_withBlock]
  generalize exec (work _) _ = outcome at h ⊢
  cases h with
  | ok result options => exact .ok result options
  | absent => exact .absent

namespace Delivers

variable {w : Work α}

theorem mono {post' : α → Prop} (h : Delivers o w post) (hpost : ∀ a, post a → post' a) :
    Delivers o w post' :=
  ⟨fun s hs => (h.run s hs).mono hpost⟩

theorem pure {a : α} (h : post a) : Delivers o (Pure.pure a) post :=
  ⟨fun _ hs => .ok h hs⟩

theorem bind {f : α → Work β} {post' : β → Prop} (hw : Delivers o w post)
    (hf : ∀ a, post a → Delivers o (f a) post') : Delivers o (w >>= f) post' :=
  ⟨fun s hs => (hw.run s hs).bind hf⟩

/-- Work that comes first and whose result is not looked at. -/
theorem andThen {f : α → Work β} {post' : β → Prop} (hw : Delivers o w post)
    (hf : ∀ a, Delivers o (f a) post') : Delivers o (w >>= f) post' :=
  hw.bind fun a _ => hf a

theorem ite {c : Prop} [Decidable c] {v : Work α} (hw : c → Delivers o w post)
    (hv : ¬ c → Delivers o v post) : Delivers o (if c then w else v) post := by
  split
  · exact hw ‹_›
  · exact hv ‹_›

theorem iteBind {c : Prop} [Decidable c] {w : Work Unit} {f : Unit → Work α}
    (hw : Delivers o w fun _ => True) (hf : ∀ u, Delivers o (f u) post) :
    Delivers o (if c then w >>= f else f ()) post :=
  .ite (fun _ => hw.andThen hf) fun _ => hf ()

theorem look {f : Sheet → Work α} (h : ∀ s, s.options = o → Delivers o (f s) post) :
    Delivers o (get >>= f) post :=
  ⟨fun s hs => (h s hs).run s hs⟩

theorem forM {γ : Type} {f : γ → Work PUnit} (h : ∀ item, Delivers o (f item) fun _ => True)
    (items : List γ) : Delivers o (items.forM f) fun _ => True := by
  induction items with
  | nil => exact .pure trivial
  | cons item items ih => exact (h item).andThen fun _ => ih

theorem withBlock {trees : List Expr} {work : Nat → Work α} (h : ∀ id, Delivers o (work id) post) :
    Delivers o (withBlock trees work) post :=
  ⟨fun s hs => .withBlock ((h s.blocks.length).run _ hs)⟩

/-- Work that leaves the sheet as it is. -/
theorem of_exec {a : α} (h : ∀ s : Sheet, s.options = o → exec w s = (.ok a, s)) :
    Delivers o w fun result => result = a :=
  ⟨fun s hs => h s hs ▸ .ok rfl hs⟩

/-- On a tolerant sheet there is a result. -/
theorem exists_ok (h : Delivers o w post) (hw : Routine w) {s : Sheet} (hs : s.options = o)
    (hstrict : s.strict = false) : ∃ a t, exec w s = (.ok a, t) ∧ post a := by
  have hgoes := hw.goesOn hstrict
  rcases hexec : exec w s with ⟨result, t⟩
  have hrun := hexec ▸ h.run s hs
  rw [hexec] at hgoes
  cases hrun with
  | ok result _ => exact ⟨_, _, rfl, result⟩
  | absent => exact hgoes.unbroken.elim

end Delivers

theorem delivers_options : Delivers o options fun found => found = o :=
  .look fun _ hs => .pure hs

theorem delivers_remark (text : String) (pause : Bool) :
    Delivers o (modify (·.remark text pause)) fun _ => True := by
  refine ⟨fun s hs => ?_⟩
  rw [exec_modify, Sheet.remark_eq]
  exact .ok trivial hs

theorem delivers_report (status : Status) (reason : String) :
    Delivers o (modify (·.report status reason)) fun _ => True := by
  refine ⟨fun s hs => ?_⟩
  rw [exec_modify, Sheet.report_eq]
  exact .ok trivial hs

theorem delivers_ask (question : Asking α) : Delivers o (ask question) fun _ => True :=
  ⟨fun _ hs => .ok trivial hs⟩

theorem delivers_written (e : Expr) : Delivers o (written e) fun _ => True :=
  .look fun _ _ => .pure trivial

theorem delivers_wording (key verbose concise : String) (payload : Payload) :
    Delivers o (wording key verbose concise payload) fun _ => True :=
  .look fun _ _ => delivers_ask _

/-- Asking for a message and writing it down. -/
theorem delivers_remarkOn (key verbose concise : String) (payload : Payload) :
    Delivers o (do remark (← wording key verbose concise payload)) fun _ => True :=
  (delivers_wording ..).andThen fun text => delivers_remark text false

theorem delivers_changeWith (c : Change) : Delivers o (changeWith c) fun _ => True := by
  refine ⟨fun s hs => ?_⟩
  rw [exec_changeWith]
  split
  · exact .ok trivial hs
  · split
    · exact .absent
    · exact .ok trivial hs

theorem delivers_changeIfPresent (c : Change) : Delivers o (changeIfPresent c) fun _ => True :=
  .look fun _ _ => .ite (fun _ => delivers_changeWith c) fun _ => .pure trivial

theorem delivers_become (current result : Expr) :
    Delivers o (Simplify.become current result) fun _ => True :=
  .ite (fun _ => delivers_changeWith _) fun _ => .pure trivial

end Work

open Work (Delivers delivers_options delivers_remark delivers_remarkOn delivers_wording
  delivers_changeWith)

/-! ### Products in words -/

/-- The word `c` is the product of the integers `a` and `b`, neither of which is the least word. -/
structure IsProduct (a b : Number) (c : Int64) : Prop where
  left : a.Whole
  right : b.Whole
  value : c.toInt = a.toInt * b.toInt

theorem ofInt_eq_of_toInt {n : Int} {c : Int64} (h : c.toInt = n) : Number.ofInt n = .int c := by
  rw [Number.ofInt_eq (h ▸ inRange_toInt c), ← h, Int64.ofInt_toInt]

/-- A part of a word that is taken times a positive number is itself a word. -/
theorem inRange_of_mul {n k : Int} (hk : 1 ≤ k) (h : InRange (n * k)) : InRange n := by
  obtain ⟨hlow, hhigh⟩ := h
  constructor <;> nlinarith

namespace IsProduct

variable {a b : Number} {c : Int64}

theorem mul_eq (h : IsProduct a b c) : a * b = .int c := by
  obtain ⟨ha, hb, hvalue⟩ := h
  cases a with
  | float x => exact ha.elim
  | int m =>
    cases b with
    | float y => exact hb.elim
    | int n =>
      change c.toInt = m.toInt * n.toInt at hvalue
      rw [Number.int_mul (hvalue ▸ inRange_toInt c), ← hvalue, Int64.ofInt_toInt]

/-- The magnitudes of the factors, zero counting as one. -/
theorem size_le (h : IsProduct a b c) :
    max 1 a.toInt.natAbs * max 1 b.toInt.natAbs ≤ 2 ^ 63 := by
  have ha := h.left.natAbs_lt
  have hb := h.right.natAbs_lt
  have hc : a.toInt.natAbs * b.toInt.natAbs ≤ 2 ^ 63 := by
    rw [← Int.natAbs_mul, ← h.value]
    obtain ⟨hlow, hhigh⟩ := inRange_toInt c
    omega
  rcases Nat.eq_zero_or_pos a.toInt.natAbs with hzero | hpos
  · rw [hzero, show max 1 0 = 1 from rfl]
    omega
  · rcases Nat.eq_zero_or_pos b.toInt.natAbs with hzero | hpos'
    · rw [hzero, show max 1 0 = 1 from rfl]
      omega
    · rwa [max_eq_right hpos, max_eq_right hpos']

/-- The coefficients of the factors, and the power of ten that their product is scaled back by. -/
theorem scaled (h : IsProduct a b c) :
    ∃ (m n : Int64) (k : ℕ), a.scale.1 = .int m ∧ b.scale.1 = .int n ∧
      a.scale.2 + b.scale.2 = k ∧ k ≤ 18 ∧ m.toInt * n.toInt * 10 ^ k = c.toInt := by
  obtain ⟨ka, haexp, hawhole, havalue, hasize⟩ := h.left.scale_eq
  obtain ⟨kb, hbexp, hbwhole, hbvalue, hbsize⟩ := h.right.scale_eq
  obtain ⟨m, hm⟩ := hawhole.exists_int
  obtain ⟨n, hn⟩ := hbwhole.exists_int
  rw [hm] at havalue hasize
  rw [hn] at hbvalue hbsize
  refine ⟨m, n, ka + kb, hm, hn, by rw [haexp, hbexp]; rfl, ?_, ?_⟩
  · have hpower : 10 ^ (ka + kb) ≤ 2 ^ 63 := by
      refine le_trans ?_ h.size_le
      rw [← hasize, ← hbsize, pow_add]
      exact Nat.mul_le_mul (Nat.le_mul_of_pos_left _ (le_max_left 1 _))
        (Nat.le_mul_of_pos_left _ (le_max_left 1 _))
    by_contra hlarge
    have hle : 10 ^ 19 ≤ 10 ^ (ka + kb) := Nat.pow_le_pow_right (by decide) (by omega)
    omega
  · rw [h.value, ← havalue, ← hbvalue, pow_add]
    show m.toInt * n.toInt * _ = m.toInt * _ * (n.toInt * _)
    ac_rfl

/-- The product of the coefficients is scaled back to the product of the factors. -/
theorem scaledBack (h : IsProduct a b c) {m n : Int64} (hm : a.scale.1.toWord? = some m)
    (hn : b.scale.1.toWord? = some n) :
    0 ≤ a.scale.2 + b.scale.2 ∧
      Number.ofInt (m.toInt * n.toInt) * powerOfTen (a.scale.2 + b.scale.2) = .int c := by
  obtain ⟨m', n', k, hm', hn', hexponent, hk, hvalue⟩ := h.scaled
  rw [hm'] at hm
  rw [hn'] at hn
  cases hm
  cases hn
  rw [hexponent]
  refine ⟨Int.natCast_nonneg k, ?_⟩
  obtain ⟨hwhole, hpower⟩ := powerOfTen_eq hk
  obtain ⟨p, hp⟩ := hwhole.exists_int
  rw [hp] at hpower ⊢
  change p.toInt = 10 ^ k at hpower
  have hone : (1 : Int) ≤ 10 ^ k := Int.pow_pos (by decide)
  have hproduct : InRange (m.toInt * n.toInt) :=
    inRange_of_mul hone (hvalue ▸ inRange_toInt c)
  have hall : (Int64.ofInt (m.toInt * n.toInt)).toInt * p.toInt = c.toInt := by
    rw [toInt_ofInt hproduct, hpower, hvalue]
  rw [Number.ofInt_eq hproduct, Number.int_mul (hall ▸ inRange_toInt c), hall, Int64.ofInt_toInt]

/-- Factors that are their own coefficients. -/
theorem unscaled (h : IsProduct a b c) {m n : Int64} (hm : a.scale.1.toWord? = some m)
    (hn : b.scale.1.toWord? = some n) (ha : (a == a.scale.1) = true)
    (hb : (b == b.scale.1) = true) : Number.ofInt (m.toInt * n.toInt) = .int c := by
  obtain ⟨m', n', k, hm', hn', -⟩ := h.scaled
  rw [hm'] at hm ha
  rw [hn'] at hn hb
  cases hm
  cases hn
  obtain ⟨-, -, hawhole, -⟩ := h.left.scale_eq
  obtain ⟨-, -, hbwhole, -⟩ := h.right.scale_eq
  have haself := h.left.eq_of_same (hm' ▸ hawhole) ha
  have hbself := h.right.eq_of_same (hn' ▸ hbwhole) hb
  refine ofInt_eq_of_toInt ?_
  rw [h.value, haself, hbself]
  rfl

end IsProduct

/-! ### Every way of multiplying -/

section

variable {o : Options} {a b : Number}

theorem delivers_calculatorMessage (operation : Operation) (expression result : Expr)
    (operands : List Number) :
    Delivers o (calculatorMessage operation expression result operands) fun _ => True :=
  .look fun _ _ => .ite (fun _ => Work.delivers_ask _) fun _ => .pure trivial

theorem delivers_remarkOnColumn (column : Column) :
    Delivers o (remarkOnColumn column) fun _ => True := by
  unfold remarkOnColumn
  refine .ite (fun _ => ?_) fun _ => .pure trivial
  extract_lets sum digit addition finish
  have hfinish : ∀ suffix, Delivers o (finish suffix) fun _ => True := fun suffix =>
    delivers_options.andThen fun options =>
      .ite (fun _ => delivers_remark _ false) fun _ => .pure trivial
  refine .ite (fun _ => ?_) fun _ => .ite (fun _ => ?_) fun _ => ?_
  · exact (delivers_wording ..).andThen hfinish
  · exact (delivers_wording ..).andThen hfinish
  · exact hfinish ""

theorem delivers_remarkOnCarry (left : Nat) (carry : Int) :
    Delivers o (remarkOnCarry left carry) fun _ => True := by
  unfold remarkOnCarry
  refine delivers_options.andThen fun options => .ite (fun _ => ?_) fun _ => .pure trivial
  exact delivers_remarkOn ..

/-- Adding whole numbers in columns gives their sum. -/
theorem delivers_addComponents (components : List Number) :
    Delivers o (addComponents components) fun result =>
      components ≠ [] → (∀ n ∈ components, n.Whole) →
        ∀ c : Int64, c.toInt = (components.map Number.toInt).sum → result = .int c := by
  unfold addComponents
  extract_lets columns sum
  refine delivers_options.andThen fun options => .iteBind (delivers_remark _ false) fun _ => ?_
  refine (Delivers.forM delivers_remarkOnColumn _).andThen fun _ => ?_
  refine (delivers_remarkOnCarry _ _).andThen fun _ => (delivers_wording ..).andThen fun text => ?_
  refine (delivers_remark text false).andThen fun _ => (delivers_changeWith _).andThen fun _ => ?_
  refine .pure fun hne hwhole c hc => ?_
  have htotal : columns.total? = some _ :=
    ColumnSum.total?_of_whole hne hwhole (hc ▸ inRange_toInt c)
  have hright : columns.right = 0 := ColumnSum.right_of_whole hwhole
  unfold sum
  rw [htotal, hright]
  exact ofInt_eq_of_toInt hc

/-- A product that is short enough is not estimated. -/
theorem delivers_estimateProduct? (a b : Number) :
    Delivers o (estimateProduct? a b) fun estimate =>
      (∀ threshold ∈ o.magnitudeThreshold, a.complexity + b.complexity ≤ threshold) →
        estimate = none := by
  unfold estimateProduct?
  refine delivers_options.bind fun options ho => ?_
  subst ho
  split
  · exact .pure fun _ => rfl
  · rename_i threshold hthreshold
    extract_lets digits estimate
    refine .ite (fun _ => .pure fun _ => rfl) fun hlong => ?_
    refine (Work.delivers_report _ _).andThen fun _ => (delivers_remark _ false).andThen fun _ => ?_
    refine (delivers_remark _ false).andThen fun _ => (delivers_remark _ false).andThen fun _ => ?_
    refine (Work.delivers_written _).andThen fun text => ?_
    refine (delivers_changeWith _).andThen fun _ => .pure fun hshort => ?_
    exact absurd (hshort threshold hthreshold) hlong

/-- Splitting a factor comes to the product of the factors, whatever the smaller product comes to. -/
theorem delivers_roundAndAdjust? {multiply : Number → Number → Work Expr}
    (hmultiply : ∀ a b, Delivers o (multiply a b) fun _ => True) (a b : Number) :
    Delivers o (roundAndAdjust? multiply a b) fun result => result = none ∨ result = some (a * b) := by
  unfold roundAndAdjust?
  refine delivers_options.andThen fun options => ?_
  extract_lets limit
  split
  · exact .pure (.inl rfl)
  · refine (delivers_changeWith _).andThen fun _ => .ite (fun _ => ?_) fun _ => ?_
    · exact (delivers_changeWith _).andThen fun _ => .pure (.inr rfl)
    · extract_lets rounded adjustment finish
      have hfinish : ∀ adjusted, Delivers o (finish adjusted)
          fun result => result = none ∨ result = some (a * b) := by
        intro adjusted
        unfold finish
        split
        · exact (delivers_changeWith _).andThen fun _ => .pure (.inr rfl)
        · exact .pure (.inr rfl)
      refine (delivers_changeWith _).andThen fun _ => .ite (fun _ => ?_) fun _ => ?_
      · exact (hmultiply _ _).andThen hfinish
      · exact (hmultiply _ _).andThen hfinish

/-- Only a decimal is rounded. -/
theorem delivers_approximateFactor (name : FactorName) (record : Bool) (x : Number) :
    Delivers o (approximateFactor name record x) fun rounded => x.Whole → rounded = x := by
  unfold approximateFactor
  refine delivers_options.andThen fun options => ?_
  dsimp only
  refine .ite (fun _ => .pure fun _ => rfl) fun hrounds => ?_
  have hdecimal : ¬ x.Whole := by
    intro hx
    obtain ⟨k, hexponent, -⟩ := hx.scale_eq
    rw [hexponent] at hrounds
    simp at hrounds
  split
  · exact .pure fun _ => rfl
  · refine .ite (fun _ => ?_) fun _ => .pure fun hx => absurd hx hdecimal
    refine (delivers_wording ..).andThen fun message => ?_
    exact (delivers_changeWith _).andThen fun _ => .pure fun hx => absurd hx hdecimal

theorem delivers_multiplyComponents (m n : Int64) (ca cb : Number) :
    Delivers o (multiplyComponents m n ca cb)
      fun result => result = Number.ofInt (m.toInt * n.toInt) := by
  unfold multiplyComponents
  refine delivers_options.andThen fun options => ?_
  extract_lets exact as bs products factored done add table
  have hdone : ∀ u, Delivers o (done u) fun result => result = exact := fun u => .pure rfl
  have hadd : ∀ u, Delivers o (add u) fun result => result = exact := fun u =>
    (delivers_addComponents _).andThen fun result =>
      .iteBind (Work.delivers_changeIfPresent _) hdone
  have htable : ∀ u, Delivers o (table u) fun result => result = exact := by
    intro u
    refine (delivers_changeWith _).andThen fun _ => .ite (fun _ => ?_) fun _ => ?_
    · refine .ite (fun _ => ?_) fun _ => hadd ()
      exact (delivers_wording ..).andThen fun text => (delivers_remark text false).andThen hadd
    · exact (delivers_changeWith _).andThen hdone
  refine (delivers_changeWith _).andThen fun _ => .ite (fun _ => ?_) fun _ => htable ()
  refine (delivers_wording ..).andThen fun text => (delivers_remark text false).andThen fun _ => ?_
  exact (delivers_remark _ false).andThen htable

/-- Scaling back by a power of ten that is a word gives the product if that is finite. -/
theorem delivers_scaleBack (exact : Number) (exponent : Int) :
    Delivers o (scaleBack exact exponent) fun result =>
      0 ≤ exponent → (exact * powerOfTen exponent).isFinite = true →
        result = .num (exact * powerOfTen exponent) := by
  unfold scaleBack
  extract_lets scaled value
  have hvalue (h : 0 ≤ exponent) : value = exact * powerOfTen exponent := if_pos h
  refine .ite (fun _ => ?_) fun hfinite => ?_
  · refine (delivers_changeWith _).andThen fun _ => .pure fun h _ => ?_
    rw [hvalue h]
  · exact .pure fun h hfinite' => absurd (hvalue h ▸ hfinite') hfinite

theorem delivers_remarkOnShift (name : FactorName) (x : Number) (exponent : Int) :
    Delivers o (remarkOnShift name x exponent) fun _ => True :=
  delivers_remarkOn ..

/-- Working a product out at length gives the product. -/
theorem delivers_multiplyAtLength (a b : Number) :
    Delivers o (multiplyAtLength a b) fun e => ∀ c, IsProduct a b c → e = .num (.int c) := by
  unfold multiplyAtLength
  refine delivers_options.andThen fun options => ?_
  extract_lets finish work
  have hfinish : ∀ result, Delivers o (finish result) fun e => e = result := fun result =>
    (delivers_remark "" true).andThen fun _ => .pure rfl
  have hwork : ∀ u, Delivers o (work u) fun e => ∀ c, IsProduct a b c → e = .num (.int c) := by
    intro u
    refine (delivers_approximateFactor .left true a).bind fun a' ha' => ?_
    refine (delivers_approximateFactor .right _ b).bind fun b' hb' => ?_
    dsimp only
    split
    · rename_i m n hm hn
      refine .iteBind (delivers_remarkOnShift ..) fun _ => ?_
      refine .iteBind (delivers_remarkOnShift ..) fun _ => ?_
      refine .ite (fun hshifted => ?_) fun hplain => ?_
      · simp only [if_pos hshifted]
        refine (delivers_changeWith _).andThen fun _ => ?_
        refine (delivers_multiplyComponents m n _ _).bind fun exact hexact => ?_
        subst hexact
        refine (delivers_scaleBack _ _).bind fun result hresult => ?_
        refine (hfinish result).mono fun e he c hc => ?_
        subst he
        obtain rfl := ha' hc.left
        obtain rfl := hb' hc.right
        obtain ⟨hexponent, hvalue⟩ := hc.scaledBack hm hn
        rw [hresult hexponent (by rw [hvalue]; rfl), hvalue]
      · simp only [if_neg hplain]
        refine (delivers_multiplyComponents m n _ _).bind fun exact hexact => ?_
        subst hexact
        refine (hfinish _).mono fun e he c hc => ?_
        subst he
        obtain rfl := ha' hc.left
        obtain rfl := hb' hc.right
        obtain ⟨ha, hb⟩ : (a' == a'.scale.1) = true ∧ (b' == b'.scale.1) = true := by
          simpa using hplain
        rw [hc.unscaled hm hn ha hb]
    · refine (delivers_changeWith _).andThen fun _ => .pure fun c hc => ?_
      rw [ha' hc.left, hb' hc.right, hc.mul_eq]
  refine .ite (fun _ => ?_) fun _ => hwork ()
  exact (delivers_wording ..).andThen fun text => (delivers_remark text false).andThen hwork

/-- The ways of `multiplyWith` differ in nothing but the shortcut. -/
theorem delivers_multiplyWith {shortcut? : Number → Number → Work (Option Number)}
    (hshortcut : ∀ a b, Delivers o (shortcut? a b)
      fun result => result = none ∨ result = some (a * b)) (a b : Number) :
    Delivers o (multiplyWith shortcut? a b) fun e =>
      (∀ threshold ∈ o.magnitudeThreshold, a.complexity + b.complexity ≤ threshold) →
        ∀ c, IsProduct a b c → e = .num (.int c) := by
  unfold multiplyWith
  refine delivers_options.andThen fun options => ?_
  extract_lets expression quick limit compact
  have hquick : ∀ explanation,
      Delivers o (Work.changeWith ⟨expression, .num quick, explanation, false⟩ >>= fun _ =>
        pure (Expr.num quick)) fun e => ∀ c, IsProduct a b c → e = .num (.int c) :=
    fun explanation => (delivers_changeWith _).andThen fun _ => .pure fun c hc => by
      rw [← hc.mul_eq]
  refine .ite (fun _ => (hquick none).mono fun e he _ => he) fun _ => ?_
  refine (delivers_estimateProduct? a b).bind fun estimate hestimate => ?_
  split
  · rename_i e
    exact .pure fun hshort => nomatch hestimate hshort
  · refine .mono ?_ fun e (he : ∀ c, IsProduct a b c → e = .num (.int c)) _ => he
    refine .ite (fun _ => ?_) fun _ => .ite (fun _ => hquick none) fun _ => ?_
    · exact (delivers_calculatorMessage ..).andThen fun message => hquick (some message)
    · refine (hshortcut a b).bind fun result hresult => ?_
      split
      · rename_i r
        refine .pure fun c hc => ?_
        have hr := hresult.resolve_left (Option.some_ne_none r)
        rw [Option.some.inj hr, hc.mul_eq]
      · exact delivers_multiplyAtLength a b

theorem delivers_multiplyPlainly (a b : Number) :
    Delivers o (multiplyPlainly a b) fun e =>
      (∀ threshold ∈ o.magnitudeThreshold, a.complexity + b.complexity ≤ threshold) →
        ∀ c, IsProduct a b c → e = .num (.int c) :=
  delivers_multiplyWith (fun _ _ => .pure (.inl rfl)) a b

theorem delivers_multiply (quick : Bool) (a b : Number) :
    Delivers o (multiply quick a b) fun e =>
      (∀ threshold ∈ o.magnitudeThreshold, a.complexity + b.complexity ≤ threshold) →
        ∀ c, IsProduct a b c → e = .num (.int c) := by
  have hsplit (a b : Number) : Delivers o (roundAndAdjust? multiplyPlainly a b)
      fun result => result = none ∨ result = some (a * b) :=
    delivers_roundAndAdjust? (fun a b => (delivers_multiplyPlainly a b).mono fun _ _ => trivial) a b
  have hplain := delivers_multiplyPlainly (o := o) a b
  exact delivers_options.andThen fun options =>
    .ite (fun _ => delivers_multiplyWith hsplit a b) fun _ => hplain

end

/-- A product of words that is a word comes out exactly, whatever the options are as long as they do not
have it estimated, whether or not a factor may be split, and on every sheet: every result of the
multiplication is the product, and on a tolerant sheet there is a result. -/
theorem multiply_exact {a b c : Int64} (ha : a ≠ Int64.minValue) (hb : b ≠ Int64.minValue)
    (hc : c.toInt = a.toInt * b.toInt) (quick : Bool) {s : Sheet}
    (hthreshold : ∀ threshold ∈ s.options.magnitudeThreshold,
      digitCount a + digitCount b ≤ threshold) :
    (∀ e t, (multiply quick (.int a) (.int b)).exec s = (.ok e, t) → e = .num (.int c)) ∧
    (s.strict = false →
      ∃ t, (multiply quick (.int a) (.int b)).exec s = (.ok (.num (.int c)), t)) := by
  have hproduct : IsProduct (.int a) (.int b) c := ⟨ha, hb, hc⟩
  have hdelivers := delivers_multiply (o := s.options) quick (.int a) (.int b)
  constructor
  · intro e t hexec
    have hrun := hexec ▸ hdelivers.run s rfl
    cases hrun with
    | ok result _ => exact result hthreshold c hproduct
  · intro hstrict
    obtain ⟨e, t, hexec, he⟩ :=
      hdelivers.exists_ok (multiply_routine quick _ _) rfl hstrict
    exact ⟨t, he hthreshold c hproduct ▸ hexec⟩

/-- Five digits and the default options, which have products of more than 28 digits estimated. -/
theorem multiply_exact_nearPower :
    (∀ threshold ∈ ({} : Options).magnitudeThreshold, digitCount 91 + digitCount 998 ≤ threshold) ∧
    ∃ t, (multiply true (.int 91) (.int 998)).exec (Sheet.new (.prod [91, 998]) {} {} false) =
      (.ok (.num (.int 90818)), t) := by
  have hthreshold : ∀ threshold ∈ ({} : Options).magnitudeThreshold,
      digitCount 91 + digitCount 998 ≤ threshold := by
    rintro _ ⟨⟩
    decide
  refine ⟨hthreshold, ?_⟩
  exact (multiply_exact (a := 91) (b := 998) (c := 90818) (by decide) (by decide) (by decide) true
    (s := Sheet.new (.prod [91, 998]) {} {} false) hthreshold).2 rfl

end Workings
