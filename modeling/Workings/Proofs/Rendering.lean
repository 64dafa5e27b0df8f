import Workings.Proofs.Numerals
import Workings.Render.Latex
import Workings.Render.Plain

/-!
# Every expression is written

Expressions are written down to a depth, and also nodes are written that are no parts of the expression:
the power with its exponent negated, the product of the factors under a fraction bar, a term without its
sign. Each of them weighs less than the node it comes from, so the weight of an expression suffices
(`Render.latexAt_eq`, `Render.plainAt_eq`), and the text of an expression is that of its node with the
texts of lighter expressions in it (`Render.latexText_eq`, `Render.plainText_eq`).
-/

namespace Workings

open Render

/-! ### Weights -/

namespace Expr

variable {e : Expr} {es : List Expr}

theorem weight_sum (terms : List Expr) : (sum terms).weight = 1 + weightAll terms := rfl

theorem weight_prod (factors : List Expr) : (prod factors).weight = 1 + weightAll factors := rfl

theorem weight_pow (base exponent : Expr) :
    (pow base exponent).weight = 1 + base.weight + exponent.weight := rfl

theorem weight_call (f : Signature) (functional subscript superscript : List Expr) :
    (call f functional subscript superscript).weight =
      1 + weightAll functional + weightAll subscript + weightAll superscript := rfl

theorem weight_deriv (body : Expr) (vars : List (String × ℕ)) :
    (deriv body vars).weight = 1 + body.weight := rfl

theorem weight_integral (body : Expr) (var : String) (lower upper : Option Expr) :
    (integral body var lower upper).weight =
      1 + body.weight + weightOption lower + weightOption upper := rfl

theorem weightAll_cons (e : Expr) (es : List Expr) : weightAll (e :: es) = e.weight + weightAll es := rfl

theorem weight_num_of_not_isNegative {n : Number} (h : n.isNegative = false) : (num n).weight = 1 :=
  if_neg (by rw [h]; exact Bool.false_ne_true)

theorem weight_num_of_isNegative {n : Number} (h : n.isNegative = true) : (num n).weight = 2 :=
  if_pos h

theorem weight_pos (e : Expr) : 0 < e.weight := by
  cases e with
  | num n =>
    cases h : n.isNegative with
    | true => exact (weight_num_of_isNegative h).symm ▸ Nat.two_pos
    | false => exact (weight_num_of_not_isNegative h).symm ▸ Nat.one_pos
  | sym _ => exact Nat.one_pos
  | sum _ | prod _ => exact Nat.add_pos_left Nat.one_pos _
  | pow _ _ | call _ _ _ _ | deriv _ _ | integral _ _ _ _ =>
    simp only [weight_pow, weight_call, weight_deriv, weight_integral]
    omega

theorem weightAll_eq (es : List Expr) : weightAll es = (es.map weight).sum := by
  induction es with
  | nil => rfl
  | cons e es ih => rw [weightAll_cons, ih, List.map_cons, List.sum_cons]

theorem weight_le_weightAll (h : e ∈ es) : e.weight ≤ weightAll es := by
  rw [weightAll_eq]
  exact List.single_le_sum (fun _ _ => Nat.zero_le _) _ (List.mem_map_of_mem h)

theorem weightAll_append (es fs : List Expr) : weightAll (es ++ fs) = weightAll es + weightAll fs := by
  simp [weightAll_eq]

/-- A part of an expression is lighter. -/
theorem weight_part {e part : Expr} (h : part ∈ e.children) : part.weight < e.weight := by
  cases e with
  | num _ | sym _ => cases h
  | sum parts | prod parts =>
    have hle : part.weight ≤ weightAll parts := weight_le_weightAll h
    exact Nat.lt_one_add_iff.2 hle
  | pow base exponent =>
    rw [weight_pow]
    rcases List.mem_cons.1 h with rfl | h
    · omega
    · obtain rfl := List.mem_singleton.1 h
      omega
  | call f functional subscript superscript =>
    rw [weight_call]
    rcases List.mem_append.1 h with h | h
    · rcases List.mem_append.1 h with h | h
      all_goals
        have hle := weight_le_weightAll h
        omega
    · have hle := weight_le_weightAll h
      omega
  | deriv body vars =>
    obtain rfl := List.mem_singleton.1 h
    rw [weight_deriv]
    omega
  | integral body var lower upper =>
    rw [weight_integral]
    rcases List.mem_cons.1 h with rfl | h
    · omega
    · rcases List.mem_append.1 h with h | h
      all_goals
        obtain rfl := Option.mem_toList.1 h
        have hpart : weightOption (some part) = part.weight := rfl
        omega

theorem weightAll_flatFactors (factors : List Expr) : weightAll (flatFactors factors) ≤ weightAll factors := by
  fun_induction flatFactors factors with
  | case1 => exact le_rfl
  | case2 inner rest ih =>
    rw [weightAll_append, weightAll_cons, weight_prod]
    omega
  | case3 factor rest _ _ ih =>
    rw [weightAll_cons]
    omega
  | case4 factor rest _ _ ih =>
    rw [weightAll_cons, weightAll_cons]
    omega

theorem weight_buildProd (factors : List Expr) : (buildProd factors).weight ≤ 1 + weightAll factors := by
  have hone (n : ℕ) : 1 ≤ 1 + n := Nat.le_add_right 1 n
  have hflat := weightAll_flatFactors factors
  unfold buildProd
  extract_lets flat
  split
  · exact hone _
  · change weightAll flat ≤ _ at hflat
    rcases flat with _ | ⟨factor, _ | ⟨second, rest⟩⟩
    · exact hone _
    · rw [weightAll_cons] at hflat
      show factor.weight ≤ _
      omega
    · show weight (.prod _) ≤ _
      rw [weight_prod]
      omega

theorem weight_buildPow (base exponent : Expr) :
    (buildPow base exponent).weight ≤ (pow base exponent).weight := by
  have hpos : 1 ≤ (pow base exponent).weight := weight_pos _
  unfold buildPow
  split
  · rw [weight_pow]
    omega
  · split
    · exact hpos
    · exact le_rfl

end Expr

/-! ### Lighter nodes -/

namespace Render

open Workings.Expr (weight weightAll)

theorem isNegative_of_negativeExponent? {exponent : Expr} {n : Number}
    (h : negativeExponent? exponent = some n) :
    ∃ k, exponent = .num k ∧ k.isNegative = true ∧ n = -k := by
  cases exponent with
  | num k =>
    rw [negativeExponent?] at h
    split at h <;> cases h
    exact ⟨k, rfl, ‹_›, rfl⟩
  | sym _ | sum _ | prod _ | pow _ _ | call _ _ _ _ | deriv _ _ | integral _ _ _ _ => cases h

/-- The power with its exponent negated is lighter. -/
theorem weight_buildPow_lt {base exponent : Expr} {n : Number} (h : negativeExponent? exponent = some n) :
    (Expr.buildPow base (.num n)).weight < (Expr.pow base exponent).weight := by
  obtain ⟨k, rfl, hk, rfl⟩ := isNegative_of_negativeExponent? h
  have hle := Expr.weight_buildPow base (.num (-k))
  rw [Expr.weight_pow, Expr.weight_num_of_not_isNegative (Number.isNegative_neg hk)] at hle
  rw [Expr.weight_pow, Expr.weight_num_of_isNegative hk]
  omega

theorem weight_root? {e value : Expr} {degree : Number} (h : root? e = some (value, degree)) :
    value.weight < e.weight := by
  unfold root? at h
  split at h
  · rename_i v n inner
    simp only [Option.bind_eq_bind, Option.bind_eq_some_iff, Option.pure_def, Option.some.injEq,
      Prod.mk.injEq] at h
    obtain ⟨_, _, _, _, rfl, _⟩ := h
    exact Expr.weight_part (List.mem_cons_self)
  · cases h

theorem weight_underBar? {factor under : Expr} (h : underBar? factor = some under) :
    under.weight < factor.weight := by
  cases factor with
  | pow base exponent =>
    obtain ⟨n, hn, rfl⟩ := Option.map_eq_some_iff.1 h
    exact weight_buildPow_lt hn
  | num _ | sym _ | sum _ | prod _ | call _ _ _ _ | deriv _ _ | integral _ _ _ _ => cases h

/-- The factors above the bar and those below it weigh no more than all of them. What is below weighs less
even if there is nothing else. -/
theorem weightAll_fraction (factors : List Expr) :
    weightAll (numerator factors) + weightAll (denominator factors) + (denominator factors).length ≤
      weightAll factors := by
  unfold numerator denominator
  induction factors with
  | nil => exact le_rfl
  | cons factor rest ih =>
    rw [Expr.weightAll_cons, List.filter_cons, List.filterMap_cons]
    cases h : underBar? factor with
    | none =>
      simp only [Option.isNone_none, if_true, Expr.weightAll_cons]
      omega
    | some under =>
      have hlt := weight_underBar? h
      simp only [Option.isNone_some, Bool.false_eq_true, if_false, Expr.weightAll_cons, List.length_cons]
      omega

theorem weight_bounds? {lower upper : Option Expr} {a b : Expr} (body : Expr) (var : String)
    (h : Expr.bounds? lower upper = some (a, b)) :
    a.weight < (Expr.integral body var lower upper).weight ∧
      b.weight < (Expr.integral body var lower upper).weight := by
  unfold Expr.bounds? at h
  split at h <;> cases h
  exact ⟨Expr.weight_part (by simp [Expr.children]), Expr.weight_part (by simp [Expr.children])⟩

/-- What is above the bar of a fraction and what is below it both weigh less than the product. -/
theorem weight_fraction {factors : List Expr} (h : (denominator factors).isEmpty = false) :
    (Expr.buildProd (numerator factors)).weight < (Expr.prod factors).weight ∧
      (Expr.buildProd (denominator factors)).weight < (Expr.prod factors).weight := by
  have habove := Expr.weight_buildProd (numerator factors)
  have hbelow := Expr.weight_buildProd (denominator factors)
  have hfraction := weightAll_fraction factors
  have hpos : 0 < (denominator factors).length := by
    rw [List.isEmpty_eq_false_iff] at h
    exact List.length_pos_iff.2 h
  rw [Expr.weight_prod]
  omega

/-- A term without its sign is no heavier than the term. -/
theorem weight_unsigned? {term magnitude : Expr} (h : unsigned? term = some magnitude) :
    magnitude.weight ≤ term.weight := by
  have hlight {n : Number} (hn : n.isNegative = true) : (Expr.num (-n)).weight < (Expr.num n).weight := by
    rw [Expr.weight_num_of_isNegative hn, Expr.weight_num_of_not_isNegative (Number.isNegative_neg hn)]
    exact Nat.one_lt_two
  unfold unsigned? at h
  split at h
  · split at h <;> cases h
    exact (hlight ‹_›).le
  · rename_i n rest
    rw [Expr.weight_prod, Expr.weightAll_cons]
    split at h
    · rename_i hn
      have hlt := hlight hn
      split at h <;> cases h
      · have hle := Expr.weight_buildProd rest
        omega
      · have hle := Expr.weight_buildProd (.num (-n) :: rest)
        rw [Expr.weightAll_cons] at hle
        omega
    · cases h
  · cases h

mutual

theorem weight_termsOf (e : Expr) : ∀ t ∈ termsOf e, t.weight ≤ e.weight := by
  cases e with
  | sum terms =>
    intro t ht
    have hle := weight_allTerms terms t ht
    rw [Expr.weight_sum]
    omega
  | num _ | sym _ | prod _ | pow _ _ | call _ _ _ _ | deriv _ _ | integral _ _ _ _ =>
    exact List.forall_mem_singleton.2 le_rfl

/-- The terms of a sum are parts of it. -/
theorem weight_allTerms (terms : List Expr) : ∀ t ∈ allTerms terms, t.weight ≤ weightAll terms := by
  cases terms with
  | nil => exact fun _ ht => nomatch ht
  | cons e es =>
    intro t ht
    rw [Expr.weightAll_cons]
    rcases List.mem_append.1 ht with ht | ht
    · have hle := weight_termsOf e t ht
      omega
    · have hle := weight_allTerms es t ht
      omega

end

/-! ### Two ways of writing -/

/-- Both give the same result. -/
def Agree {α : Type} (a b : Option α) : Prop :=
  ∃ result, a = some result ∧ b = some result

namespace Agree

variable {α β : Type} {a b : Option α}

theorem pure (result : α) : Agree (some result) (some result) :=
  ⟨result, rfl, rfl⟩

theorem bind {f g : α → Option β} (h : Agree a b) (hf : ∀ result, Agree (f result) (g result)) :
    Agree (a >>= f) (b >>= g) := by
  obtain ⟨result, rfl, rfl⟩ := h
  exact hf result

theorem map (h : Agree a b) (f : α → β) : Agree (a.map f) (b.map f) := by
  obtain ⟨result, rfl, rfl⟩ := h
  exact pure (f result)

theorem mapM {γ : Type} {f g : γ → Option α} {items : List γ}
    (h : ∀ item ∈ items, Agree (f item) (g item)) : Agree (items.mapM f) (items.mapM g) := by
  induction items with
  | nil => exact pure []
  | cons item items ih =>
    obtain ⟨hitem, hitems⟩ := List.forall_mem_cons.1 h
    rw [List.mapM_cons, List.mapM_cons]
    exact hitem.bind fun first => (ih hitems).bind fun rest => pure (first :: rest)

theorem eq (h : Agree a b) : a = b := by
  obtain ⟨result, rfl, rfl⟩ := h
  rfl

end Agree

/-- A way of writing expressions, in parentheses if need be. -/
abbrev Writer := Bool → Expr → Option String

/-- Both ways of writing agree on what is lighter than an expression. -/
def AgreeBelow (v w : Writer) (e : Expr) : Prop :=
  ∀ group part, part.weight < e.weight → Agree (v group part) (w group part)

/-- A way of writing nodes that depends on the texts of lighter expressions only, and that gives a text if
all of them have one. -/
def Descends (node : Writer → Writer) : Prop :=
  ∀ v w group e, AgreeBelow v w e → Agree (node v group e) (node w group e)

section

variable {v w : Writer} {e : Expr}

theorem AgreeBelow.mapM {parts : List Expr} (h : AgreeBelow v w e) (hparts : parts ⊆ e.children)
    (group : Bool) : Agree (parts.mapM (v group)) (parts.mapM (w group)) :=
  .mapM fun _ hpart => h group _ (Expr.weight_part (hparts hpart))

theorem AgreeBelow.signedTerm {term : Expr} (h : AgreeBelow v w e) (hterm : term.weight < e.weight) :
    Agree (signedTerm (v false) term) (signedTerm (w false) term) := by
  refine (h false term hterm).bind fun text => ?_
  split
  · exact .pure _
  · split
    · rename_i magnitude hmagnitude
      have hlight := weight_unsigned? hmagnitude
      exact (h false magnitude (by omega)).bind fun text => .pure _
    · exact .pure _

theorem AgreeBelow.signedSum {terms : List Expr} (h : AgreeBelow v w (.sum terms)) :
    Agree (signedSum (v false) terms) (signedSum (w false) terms) := by
  refine Agree.bind (.mapM fun term hterm => h.signedTerm ?_) fun texts => .pure _
  have hle := weight_allTerms terms term hterm
  rw [Expr.weight_sum]
  omega

/-- A product is the texts of its factors next to each other, or those of all but the first, which is a
minus one then, after a minus sign. -/
theorem product_eq (mark : String → String) (factors : List Expr) :
    ∃ (sign : Bool) (rest : List Expr), rest ⊆ factors ∧ ∀ write, product write mark factors =
      (rest.mapM write).map fun texts =>
        let body := juxtapose mark (if sign then some "" else none) texts
        let text := if sign then "-" ++ body else body
        if text.isEmpty then "1" else text := by
  unfold product
  split
  rename_i sign rest hsplit
  refine ⟨sign, rest, ?_, fun write => Option.map_eq_bind.symm⟩
  split at hsplit
  · split at hsplit <;> cases hsplit
    · exact List.subset_cons_self _ _
    · exact List.Subset.refl _
  · cases hsplit
    exact List.Subset.refl _

theorem agree_product {factors : List Expr} {mark : String → String} {f g : Expr → Option String}
    (h : ∀ factor ∈ factors, Agree (f factor) (g factor)) :
    Agree (product f mark factors) (product g mark factors) := by
  obtain ⟨sign, rest, hrest, heq⟩ := product_eq mark factors
  rw [heq, heq]
  exact (Agree.mapM fun factor hfactor => h factor (hrest hfactor)).map _

theorem agree_plainScript {e : Expr} {mark : String} {parts : List Expr} (h : AgreeBelow v w e)
    (hparts : parts ⊆ e.children) : Agree (plainScript v mark parts) (plainScript w mark parts) := by
  unfold plainScript
  split
  · exact .pure _
  · rename_i argument
    exact (h true argument (Expr.weight_part (hparts List.mem_cons_self))).map _
  · exact (h.mapM hparts false).map _

theorem agree_latexBase {e base : Expr} (h : AgreeBelow v w e) (hbase : base.weight < e.weight) :
    Agree (latexBase v base) (latexBase w base) := by
  unfold latexBase
  split
  · exact .pure _
  · split
    · exact (h false _ hbase).map _
    · exact h true _ hbase
  · split
    · exact (h false _ hbase).map _
    · exact h true _ hbase
  · exact h true _ hbase

theorem descends_latexNode : Descends latexNode := by
  intro v w group e h
  cases e with
  | num _ | sym _ => exact .pure _
  | sum terms => exact h.signedSum.bind fun _ => .pure _
  | pow base exponent =>
    rw [latexNode, latexNode]
    split
    · rename_i magnitude hnegative
      exact (h false _ (weight_buildPow_lt hnegative)).bind fun _ => .pure _
    · split
      · rename_i value degree hroot
        exact (h false _ (weight_root? hroot)).bind fun _ => .pure _
      · refine (h false exponent (Expr.weight_part (.tail _ (.head _)))).bind fun _ => ?_
        exact (agree_latexBase h (Expr.weight_part (.head _))).bind fun _ => .pure _
  | prod factors =>
    rw [latexNode, latexNode]
    split
    · exact agree_product fun factor hfactor => h true factor (Expr.weight_part hfactor)
    · rename_i hbelow
      rw [Bool.not_eq_true] at hbelow
      obtain ⟨hnumerator, hdenominator⟩ := weight_fraction hbelow
      exact (h false _ hnumerator).bind fun _ => (h false _ hdenominator).bind fun _ => .pure _
  | call f functional subscript superscript =>
    refine (h.mapM (by simp [Expr.children]) false).bind fun _ => ?_
    refine (h.mapM (by simp [Expr.children]) false).bind fun _ => ?_
    exact (h.mapM (by simp [Expr.children]) false).bind fun _ => .pure _
  | deriv body vars => exact (h true body (Expr.weight_part (.head _))).bind fun _ => .pure _
  | integral body var lower upper =>
    refine (h false body (Expr.weight_part (.head _))).bind fun _ => ?_
    split
    · rename_i hbounds
      obtain ⟨hlower, hupper⟩ := weight_bounds? body var hbounds
      exact (h false _ hlower).bind fun _ => (h false _ hupper).bind fun _ => .pure _
    · exact .pure _

theorem descends_plainNode : Descends plainNode := by
  intro v w group e h
  cases e with
  | num _ | sym _ => exact .pure _
  | sum terms => exact h.signedSum.bind fun _ => .pure _
  | pow base exponent =>
    rw [plainNode, plainNode]
    split
    · rename_i magnitude hnegative
      exact (h true _ (weight_buildPow_lt hnegative)).bind fun _ => .pure _
    · split
      · rename_i value degree hroot
        exact (h false _ (weight_root? hroot)).bind fun _ => .pure _
      · refine (h true base (Expr.weight_part (.head _))).bind fun _ => ?_
        exact (h true exponent (Expr.weight_part (.tail _ (.head _)))).bind fun _ => .pure _
  | prod factors =>
    rw [plainNode, plainNode]
    split
    · refine (agree_product fun factor hfactor => ?_).bind fun _ => .pure _
      unfold plainFactor
      split
      · exact .pure _
      · exact h true factor (Expr.weight_part hfactor)
    · rename_i hbelow
      rw [Bool.not_eq_true] at hbelow
      obtain ⟨hnumerator, hdenominator⟩ := weight_fraction hbelow
      exact (h true _ hnumerator).bind fun _ => (h true _ hdenominator).bind fun _ => .pure _
  | call f functional subscript superscript =>
    refine (agree_plainScript h (by simp [Expr.children])).bind fun _ => ?_
    refine (agree_plainScript h (by simp [Expr.children])).bind fun _ => ?_
    exact (h.mapM (by simp [Expr.children]) false).bind fun _ => .pure _
  | deriv body vars => exact (h false body (Expr.weight_part (.head _))).bind fun _ => .pure _
  | integral body var lower upper =>
    refine (h false body (Expr.weight_part (.head _))).bind fun _ => ?_
    split
    · rename_i hbounds
      obtain ⟨hlower, hupper⟩ := weight_bounds? body var hbounds
      exact (h false _ hlower).bind fun _ => (h false _ hupper).bind fun _ => .pure _
    · exact .pure _

end

/-! ### The texts of expressions -/

section

variable {node : Writer → Writer} {form : ℕ → Writer}

/-- Writing nodes down to a depth gives one and the same text from the weight of the expression on. -/
theorem Descends.agree (h : Descends node) (hform : ∀ depth, form (depth + 1) = node (form depth))
    (group : Bool) {e : Expr} {depth depth' : ℕ} (hdepth : e.weight ≤ depth) (hdepth' : e.weight ≤ depth') :
    Agree (form depth group e) (form depth' group e) := by
  induction depth generalizing group e depth' with
  | zero => exact absurd e.weight_pos (by omega)
  | succ depth ih =>
    obtain ⟨depth', rfl⟩ := Nat.exists_eq_add_one_of_ne_zero (n := depth') (by
      have := e.weight_pos
      omega)
    rw [hform, hform]
    exact h _ _ group e fun group part hpart => ih group (by omega) (by omega)

/-- The text of an expression is that of its node with the texts of lighter expressions in it. -/
theorem Descends.text_eq (h : Descends node) (hform : ∀ depth, form (depth + 1) = node (form depth))
    {text : Bool → Expr → String} (htext : ∀ group e, text group e = (form e.weight group e).getD "")
    (group : Bool) (e : Expr) :
    some (text group e) = node (fun group part => some (text group part)) group e := by
  have hsome (group : Bool) (e : Expr) {depth : ℕ} (hdepth : e.weight ≤ depth) :
      Agree (form depth group e) (some (text group e)) := by
    obtain ⟨result, hresult, hself⟩ := h.agree hform group hdepth le_rfl
    rw [htext, hresult, hself]
    exact .pure result
  obtain ⟨depth, hdepth⟩ := Nat.exists_eq_add_one_of_ne_zero e.weight_pos.ne'
  have hself := (hsome group e le_rfl).eq
  rw [hdepth, hform] at hself
  rw [← hself]
  exact (h _ _ group e fun group part hpart => hsome group part (by omega)).eq

end

/-- The LaTeX form of an expression, in parentheses if need be. -/
def latexText (group : Bool) (e : Expr) : String :=
  (latexAt e.weight group e).getD ""

/-- The plain form of an expression, in parentheses if need be. -/
def plainText (group : Bool) (e : Expr) : String :=
  (plainAt e.weight group e).getD ""

theorem latexText_eq (group : Bool) (e : Expr) :
    some (latexText group e) = latexNode (fun group part => some (latexText group part)) group e :=
  descends_latexNode.text_eq (fun _ => rfl) (fun _ _ => rfl) group e

theorem plainText_eq (group : Bool) (e : Expr) :
    some (plainText group e) = plainNode (fun group part => some (plainText group part)) group e :=
  descends_plainNode.text_eq (fun _ => rfl) (fun _ _ => rfl) group e

end Render

end Workings
