import Workings.Proofs.Derivations

/-!
# Functions near a generic point

The laws of differentiation hold of functions as soon as two functions that agree where it matters are
taken for one. `Germ` is the field of real functions near a *generic point* of the real line: a set of
points counts as a neighbourhood of it if it is in an ultrafilter that has every dense open set
(`generic`), and the functions are those that are analytic at the points of such a set. What is zero there
is zero near the points (`Smooth.near_or_ne`), so these functions have inverses, logarithms and
derivatives, and expressions have their usual meaning (`Germ.meaning`).
-/

namespace Workings

open Filter Topology

noncomputable section

instance neBot_residual : NeBot (residual ℝ) :=
  ⟨fun h => by simpa using (dense_of_mem_residual (h ▸ mem_bot : (∅ : Set ℝ) ∈ residual ℝ)).nonempty⟩

/-- The sets of points on which something holds near the generic point. -/
def generic : Ultrafilter ℝ :=
  Ultrafilter.of (residual ℝ)

theorem mem_generic {s : Set ℝ} (hopen : IsOpen s) (hdense : Dense s) : s ∈ generic :=
  Ultrafilter.of_le (residual ℝ) (residual_of_dense_open hopen hdense)

/-- Analytic at the points near the generic one. -/
def Smooth (f : ℝ → ℝ) : Prop :=
  ∀ᶠ t in generic, AnalyticAt ℝ f t

namespace Smooth

variable {f g : ℝ → ℝ}

theorem const (c : ℝ) : Smooth fun _ => c :=
  .of_forall fun _ => analyticAt_const

theorem id : Smooth id :=
  .of_forall fun _ => analyticAt_id

theorem add (hf : Smooth f) (hg : Smooth g) : Smooth (f + g) := by
  filter_upwards [hf, hg] with t hf hg using hf.add hg

theorem mul (hf : Smooth f) (hg : Smooth g) : Smooth (f * g) := by
  filter_upwards [hf, hg] with t hf hg using hf.mul hg

theorem neg (hf : Smooth f) : Smooth (-f) := by
  filter_upwards [hf] with t hf using hf.neg

theorem deriv (hf : Smooth f) : Smooth (deriv f) := by
  filter_upwards [hf] with t hf using hf.deriv

/-- Two functions are the same near the generic point, also as functions near every point of it, or they
differ at every point. -/
theorem near_or_ne (hf : Smooth f) (hg : Smooth g) :
    (∀ᶠ t in generic, f =ᶠ[𝓝 t] g) ∨ ∀ᶠ t in generic, f t ≠ g t := by
  let good : Set ℝ := {t | AnalyticAt ℝ f t ∧ AnalyticAt ℝ g t}
  let decided : Set ℝ := {t | f =ᶠ[𝓝 t] g} ∪ {t | ∀ᶠ u in 𝓝 t, f u ≠ g u}
  have hopen : IsOpen decided :=
    isOpen_setOfPred_eventually_nhds.union isOpen_setOfPred_eventually_nhds
  -- A point where both are analytic is decided, or all other points close to it are.
  have hclose : good ⊆ closure decided := by
    rintro t ⟨hft, hgt⟩
    rcases hft.eventually_eq_or_eventually_ne hgt with h | h
    · exact subset_closure (.inl h)
    · have hnear : ∀ᶠ u in 𝓝[≠] t, u ∈ decided := by
        filter_upwards [eventually_eventually_nhdsWithin.2 h, self_mem_nhdsWithin] with u hu hut
        rw [isOpen_compl_singleton.nhdsWithin_eq hut] at hu
        exact .inr hu
      exact mem_closure_iff_frequently.2 (hnear.frequently.filter_mono nhdsWithin_le_nhds)
  have hdense : Dense (decided ∪ interior goodᶜ) := by
    intro t
    by_cases ht : t ∈ closure good
    · exact closure_mono Set.subset_union_left (closure_minimal hclose isClosed_closure ht)
    · rw [← Set.mem_compl_iff, ← interior_compl] at ht
      exact subset_closure (.inr ht)
  have hgeneric : ∀ᶠ t in generic, t ∈ decided ∪ interior goodᶜ :=
    mem_generic (hopen.union isOpen_interior) hdense
  refine Ultrafilter.eventually_or.1 ?_
  filter_upwards [hf, hg, hgeneric] with t hft hgt ht
  rcases ht with (ht | ht) | ht
  · exact .inl ht
  · exact .inr ht.self_of_nhds
  · exact absurd ⟨hft, hgt⟩ (interior_subset ht)

/-- Functions with the same values near the generic point are the same near its points. -/
theorem near (hf : Smooth f) (hg : Smooth g) (h : f =ᶠ[generic] g) :
    ∀ᶠ t in generic, f =ᶠ[𝓝 t] g := by
  refine (hf.near_or_ne hg).resolve_right fun hne => ?_
  obtain ⟨t, heq, hne⟩ := (h.and hne).exists
  exact hne heq

/-- A function that is analytic away from zero may be applied, also to zero. -/
theorem comp {F : ℝ → ℝ} (hf : Smooth f) (hF : ∀ t ≠ 0, AnalyticAt ℝ F t) : Smooth (F ∘ f) := by
  rcases hf.near_or_ne (const 0) with h | h
  · filter_upwards [h] with t ht
    exact analyticAt_const.congr (ht.mono fun u hu => congrArg F hu.symm)
  · filter_upwards [hf, h] with t hft ht using (hF _ ht).comp hft

end Smooth

/-! ### The field of germs -/

/-- The functions near the generic point, as a subfield of all functions up to agreement there. -/
def smoothGerms : Subfield (Filter.Germ (generic : Filter ℝ) ℝ) where
  carrier := {a | ∃ f : ℝ → ℝ, Smooth f ∧ (f : Filter.Germ (generic : Filter ℝ) ℝ) = a}
  zero_mem' := ⟨fun _ => 0, .const 0, rfl⟩
  one_mem' := ⟨fun _ => 1, .const 1, rfl⟩
  add_mem' := by
    rintro _ _ ⟨f, hf, rfl⟩ ⟨g, hg, rfl⟩
    exact ⟨f + g, hf.add hg, rfl⟩
  mul_mem' := by
    rintro _ _ ⟨f, hf, rfl⟩ ⟨g, hg, rfl⟩
    exact ⟨f * g, hf.mul hg, rfl⟩
  neg_mem' := by
    rintro _ ⟨f, hf, rfl⟩
    exact ⟨-f, hf.neg, rfl⟩
  inv_mem' := by
    rintro _ ⟨f, hf, rfl⟩
    exact ⟨Inv.inv ∘ f, hf.comp fun t ht => analyticAt_id.inv ht, rfl⟩

/-- A real function near the generic point. -/
abbrev Germ : Type :=
  smoothGerms

namespace Germ

variable {f g : ℝ → ℝ}

/-- The germ of a function. -/
def of (f : ℝ → ℝ) (hf : Smooth f) : Germ :=
  ⟨f, f, hf, rfl⟩

theorem exists_of (a : Germ) : ∃ f, ∃ hf : Smooth f, a = of f hf := by
  obtain ⟨_, f, hf, rfl⟩ := a
  exact ⟨f, hf, rfl⟩

theorem of_eq_of {hf : Smooth f} {hg : Smooth g} : of f hf = of g hg ↔ f =ᶠ[generic] g :=
  Subtype.ext_iff.trans Filter.Germ.coe_eq

theorem of_add (hf : Smooth f) (hg : Smooth g) : of f hf + of g hg = of (f + g) (hf.add hg) := rfl

theorem of_mul (hf : Smooth f) (hg : Smooth g) : of f hf * of g hg = of (f * g) (hf.mul hg) := rfl

theorem of_eq_zero {hf : Smooth f} : of f hf = 0 ↔ ∀ᶠ t in generic, f t = 0 := by
  show of f hf = of (fun _ => 0) (.const 0) ↔ _
  exact of_eq_of

theorem of_eq_one {hf : Smooth f} : of f hf = 1 ↔ ∀ᶠ t in generic, f t = 1 := by
  show of f hf = of (fun _ => 1) (.const 1) ↔ _
  exact of_eq_of

/-- A function that stands for a germ. -/
def rep (a : Germ) : ℝ → ℝ :=
  a.exists_of.choose

theorem smooth_rep (a : Germ) : Smooth a.rep :=
  a.exists_of.choose_spec.choose

theorem of_rep (a : Germ) : of a.rep a.smooth_rep = a :=
  a.exists_of.choose_spec.choose_spec.symm

theorem rep_of (hf : Smooth f) : (of f hf).rep =ᶠ[generic] f :=
  of_eq_of.1 (of_rep (of f hf))

/-! ### The derivation -/

/-- The derivative of a germ. -/
def derive (a : Germ) : Germ :=
  of (deriv a.rep) a.smooth_rep.deriv

theorem derive_of (hf : Smooth f) : derive (of f hf) = of (deriv f) hf.deriv := by
  refine of_eq_of.2 ?_
  filter_upwards [(smooth_rep _).near hf (rep_of hf)] with t ht using ht.deriv_eq

theorem derive_add (a b : Germ) : derive (a + b) = derive a + derive b := by
  obtain ⟨f, hf, rfl⟩ := a.exists_of
  obtain ⟨g, hg, rfl⟩ := b.exists_of
  rw [of_add, derive_of, derive_of, derive_of, of_add]
  refine of_eq_of.2 ?_
  filter_upwards [hf, hg] with t hf hg
  exact deriv_add hf.differentiableAt hg.differentiableAt

theorem derive_mul (a b : Germ) : derive (a * b) = a * derive b + b * derive a := by
  obtain ⟨f, hf, rfl⟩ := a.exists_of
  obtain ⟨g, hg, rfl⟩ := b.exists_of
  rw [of_mul, derive_of, derive_of, derive_of, of_mul, of_mul, of_add]
  refine of_eq_of.2 ?_
  filter_upwards [hf, hg] with t hf hg
  rw [deriv_mul hf.differentiableAt hg.differentiableAt]
  show _ = f t * deriv g t + g t * deriv f t
  ring

/-- Differentiation of germs. -/
def derivation : Derivation ℤ Germ Germ :=
  .mk' (AddMonoidHom.mk' derive derive_add).toIntLinearMap derive_mul

theorem derivation_of (hf : Smooth f) : derivation (of f hf) = of (deriv f) hf.deriv :=
  derive_of hf

/-! ### Functions of germs -/

/-- A function that is analytic away from zero, applied to a germ. -/
def apply (F : ℝ → ℝ) (hF : ∀ t ≠ 0, AnalyticAt ℝ F t) (a : Germ) : Germ :=
  of (F ∘ a.rep) (a.smooth_rep.comp hF)

section

variable {F G : ℝ → ℝ} {hF : ∀ t ≠ 0, AnalyticAt ℝ F t}

theorem apply_of (hf : Smooth f) : apply F hF (of f hf) = of (F ∘ f) (hf.comp hF) := by
  refine of_eq_of.2 ?_
  filter_upwards [rep_of hf] with t ht using congrArg F ht

/-- The chain rule. -/
theorem derivation_apply (hG : ∀ t ≠ 0, AnalyticAt ℝ G t) (h : ∀ t ≠ 0, HasDerivAt F (G t) t)
    (a : Germ) :
    derivation (apply F hF a) = apply G hG a * derivation a := by
  obtain ⟨f, hf, rfl⟩ := a.exists_of
  rw [apply_of, apply_of, derivation_of, derivation_of, of_mul]
  refine of_eq_of.2 ?_
  rcases hf.near_or_ne (.const 0) with hzero | hne
  · filter_upwards [hzero] with t ht
    have hconst : F ∘ f =ᶠ[𝓝 t] fun _ => F 0 := ht.mono fun u hu => congrArg F hu
    rw [hconst.deriv_eq]
    show _ = G (f t) * deriv f t
    rw [ht.deriv_eq, deriv_const, deriv_const, mul_zero]
  · filter_upwards [hf, hne] with t hft ht
    exact ((h _ ht).comp t hft.differentiableAt.hasDerivAt).deriv

end

/-- The exponential of a germ. -/
def exp (a : Germ) : Germ :=
  apply Real.exp (fun _ _ => analyticAt_rexp) a

/-- The sine of a germ. -/
def sin (a : Germ) : Germ :=
  apply Real.sin (fun _ _ => Real.contDiff_sin.contDiffAt.analyticAt) a

/-- The cosine of a germ. -/
def cos (a : Germ) : Germ :=
  apply Real.cos (fun _ _ => Real.contDiff_cos.contDiffAt.analyticAt) a

/-- The logarithm of the magnitude of a germ. -/
def ln (a : Germ) : Germ :=
  apply Real.log (fun _ ht => (Real.contDiffAt_log.2 ht).analyticAt) a

/-- The square root of a germ, which is zero where the germ is negative. -/
def sqrt (a : Germ) : Germ :=
  apply (√·) (fun _ ht => (Real.contDiffAt_sqrt ht).analyticAt) a

variable (a b : Germ)

theorem derivation_exp : derivation (exp a) = exp a * derivation a :=
  derivation_apply _ (fun t _ => Real.hasDerivAt_exp t) a

theorem derivation_sin : derivation (sin a) = cos a * derivation a :=
  derivation_apply _ (fun t _ => Real.hasDerivAt_sin t) a

theorem derivation_cos : derivation (cos a) = -sin a * derivation a := by
  have hneg : ∀ t ≠ 0, AnalyticAt ℝ (fun t => -Real.sin t) t :=
    fun _ _ => Real.contDiff_sin.neg.contDiffAt.analyticAt
  exact derivation_apply hneg (fun t _ => Real.hasDerivAt_cos t) a

theorem derivation_ln : derivation (ln a) = a⁻¹ * derivation a := by
  have hinv : ∀ t : ℝ, t ≠ 0 → AnalyticAt ℝ (fun t => t⁻¹) t := fun _ ht => analyticAt_id.inv ht
  have happly : apply (fun t => t⁻¹) hinv a = a⁻¹ := by
    obtain ⟨f, hf, rfl⟩ := a.exists_of
    exact apply_of hf
  rw [← happly]
  exact derivation_apply hinv (fun t ht => Real.hasDerivAt_log ht) a

theorem sqrt_mul_sqrt (h : sqrt a ≠ 0) : sqrt a * sqrt a = a := by
  obtain ⟨f, hf, rfl⟩ := a.exists_of
  rw [sqrt, apply_of] at h ⊢
  rw [of_mul]
  refine of_eq_of.2 ?_
  filter_upwards [Ultrafilter.eventually_not.2 (mt of_eq_zero.2 h)] with t ht
  exact Real.mul_self_sqrt (Real.sqrt_ne_zero'.1 ht).le

theorem derivation_sqrt : derivation (sqrt a) = 2⁻¹ * (sqrt a)⁻¹ * derivation a := by
  by_cases h : sqrt a = 0
  · rw [h, inv_zero, mul_zero, zero_mul, map_zero]
  · have hsquare := congrArg derivation (sqrt_mul_sqrt a h)
    rw [derivation.leibniz, smul_eq_mul] at hsquare
    rw [← hsquare]
    field_simp
    ring

theorem sin_sq_add_cos_sq : sin a ^ 2 + cos a ^ 2 = 1 := by
  obtain ⟨f, hf, rfl⟩ := a.exists_of
  rw [sin, cos, apply_of, apply_of, sq, sq, of_mul, of_mul, of_add]
  refine of_eq_one.2 (.of_forall fun t => ?_)
  show Real.sin (f t) * Real.sin (f t) + Real.cos (f t) * Real.cos (f t) = 1
  rw [← sq, ← sq, Real.sin_sq_add_cos_sq]

/-- The tangent of a germ. -/
theorem derivation_sin_div_cos :
    derivation (sin a / cos a) = (cos a)⁻¹ ^ 2 * derivation a := by
  have hunit := sin_sq_add_cos_sq a
  rw [derivation.leibniz_div, derivation_sin, derivation_cos]
  simp only [smul_eq_mul]
  linear_combination (cos a)⁻¹ ^ 2 * derivation a * hunit

theorem exp_add : exp (a + b) = exp a * exp b := by
  obtain ⟨f, hf, rfl⟩ := a.exists_of
  obtain ⟨g, hg, rfl⟩ := b.exists_of
  rw [exp, exp, exp, of_add, apply_of, apply_of, apply_of, of_mul]
  exact of_eq_of.2 (.of_forall fun t => Real.exp_add (f t) (g t))

theorem exp_zero : exp 0 = 1 :=
  (apply_of (.const 0)).trans (of_eq_one.2 (.of_forall fun _ => Real.exp_zero))

theorem ln_one : ln 1 = 0 :=
  (apply_of (.const 1)).trans (of_eq_zero.2 (.of_forall fun _ => Real.log_one))

theorem exp_ne_zero : exp a ≠ 0 := by
  intro h
  have hone := exp_add a (-a)
  rw [h, zero_mul, add_neg_cancel, exp_zero] at hone
  exact one_ne_zero hone

instance : CharZero Germ where
  cast_injective m n h := by
    have hconst (c : ℤ) : (c : Germ) = of (fun _ => c) (.const c) := Subtype.ext (by push_cast; rfl)
    have hsame : ((m : ℤ) : Germ) = ((n : ℤ) : Germ) := by exact_mod_cast h
    rw [hconst, hconst] at hsame
    obtain ⟨t, ht⟩ := (of_eq_of.1 hsame).exists
    change ((m : ℤ) : ℝ) = ((n : ℤ) : ℝ) at ht
    exact_mod_cast ht

/-! ### Powers -/

open scoped Classical in
/-- The power of two germs: repeated multiplication if the exponent is an integer, and by way of the
logarithm if the base is positive, which is to say the exponential of its logarithm. -/
def pow (b c : Germ) : Germ :=
  if h : ∃ n : ℤ, c = n then b ^ h.choose
  else if exp (ln b) = b then exp (c * ln b)
  else 0

theorem pow_int (n : ℤ) : pow b n = b ^ n := by
  have h : ∃ k : ℤ, (n : Germ) = k := ⟨n, rfl⟩
  have hn : h.choose = n := (Int.cast_injective h.choose_spec).symm
  rw [pow, dif_pos h, hn]

theorem pow_neg_one : pow b (-1) = b⁻¹ := by
  rw [← zpow_neg_one, ← pow_int]
  norm_num

theorem pow_two : pow b 2 = b ^ 2 := by
  have htwo : pow b ((2 : ℤ) : Germ) = b ^ (2 : ℤ) := pow_int b 2
  rwa [Int.cast_ofNat, zpow_ofNat] at htwo

/-- The cases in which a power is taken. -/
theorem pow_cases (c : Germ) :
    (∃ n : ℤ, c = n ∧ pow b c = b ^ n) ∨
      ((∀ n : ℤ, c ≠ n) ∧ exp (ln b) = b ∧ pow b c = exp (c * ln b)) ∨
      ((∀ n : ℤ, c ≠ n) ∧ exp (ln b) ≠ b ∧ pow b c = 0) := by
  by_cases h : ∃ n : ℤ, c = n
  · obtain ⟨n, rfl⟩ := h
    exact .inl ⟨n, rfl, pow_int b n⟩
  · have hne : ∀ n : ℤ, c ≠ n := fun n hn => h ⟨n, hn⟩
    by_cases hpos : exp (ln b) = b
    · exact .inr (.inl ⟨hne, hpos, by rw [pow, dif_neg h, if_pos hpos]⟩)
    · exact .inr (.inr ⟨hne, hpos, by rw [pow, dif_neg h, if_neg hpos]⟩)

theorem one_pow (c : Germ) : pow 1 c = 1 := by
  obtain ⟨n, -, hpow⟩ | ⟨-, -, hpow⟩ | ⟨-, hpos, -⟩ := pow_cases 1 c
  · rw [hpow, one_zpow]
  · rw [hpow, ln_one, mul_zero, exp_zero]
  · exact absurd (by rw [ln_one, exp_zero]) hpos

/-- The power of a positive germ by one less. -/
theorem exp_sub_one_mul_ln {b : Germ} (hpos : exp (ln b) = b) (c : Germ) :
    exp ((c - 1) * ln b) = exp (c * ln b) * b⁻¹ := by
  have hne : b ≠ 0 := hpos ▸ exp_ne_zero (ln b)
  have hsplit : c * ln b = (c - 1) * ln b + ln b := by ring
  rw [hsplit, exp_add, hpos, mul_inv_cancel_right₀ hne]

theorem derivation_pow (c : Germ) :
    derivation (pow b c) =
      pow b c * (derivation c * ln b + c * derivation b * pow b (-1)) := by
  rw [pow_neg_one]
  obtain ⟨n, rfl, hpow⟩ | ⟨-, hpos, hpow⟩ | ⟨-, -, hpow⟩ := pow_cases b c
  · rw [hpow, derivation.leibniz_zpow, derivation.map_intCast, smul_eq_mul, zsmul_eq_mul]
    rcases eq_or_ne b 0 with rfl | hb
    · rw [map_zero]
      ring
    · rw [zpow_sub_one₀ hb]
      ring
  · rw [hpow, derivation_exp, derivation.leibniz, derivation_ln, smul_eq_mul, smul_eq_mul]
    ring
  · rw [hpow, map_zero, zero_mul]

theorem derivation_pow_const {c : Germ} (hc : derivation c = 0) :
    derivation (pow b c) = c * pow b (c - 1) * derivation b := by
  have hlower (h : ∀ n : ℤ, c ≠ n) (n : ℤ) : c - 1 ≠ n := fun hn =>
    h (n + 1) (by push_cast; rw [← hn, sub_add_cancel])
  obtain ⟨n, rfl, hpow⟩ | ⟨hc', hpos, hpow⟩ | ⟨hc', hpos, hpow⟩ := pow_cases b c
  · have hpred : ((n : Germ) - 1) = ((n - 1 : ℤ) : Germ) := by push_cast; rfl
    rw [hpow, derivation.leibniz_zpow, hpred, pow_int, smul_eq_mul, zsmul_eq_mul, mul_assoc]
  · obtain ⟨n, hn, -⟩ | ⟨-, -, hpow'⟩ | ⟨-, hpos', -⟩ := pow_cases b (c - 1)
    · exact absurd hn (hlower hc' n)
    · rw [hpow, hpow', derivation_exp, derivation.leibniz, derivation_ln, hc,
        exp_sub_one_mul_ln hpos, smul_eq_mul, smul_zero, add_zero]
      ring
    · exact absurd hpos hpos'
  · obtain ⟨n, hn, -⟩ | ⟨-, hpos', -⟩ | ⟨-, -, hpow'⟩ := pow_cases b (c - 1)
    · exact absurd hn (hlower hc' n)
    · exact absurd hpos' hpos
    · rw [hpow, hpow', map_zero, mul_zero, zero_mul]

/-! ### The meaning of expressions -/

/-- A function of one germ by its name. A function that is not known is the identity. -/
def fn (name : String) (u : Germ) : Germ :=
  match name with
  | "sin" => sin u
  | "cos" => cos u
  | "tan" => sin u / cos u
  | "sec" => (cos u)⁻¹
  | "exp" => exp u
  | "ln" => ln u
  | "sqrt" => sqrt u
  | _ => u

open scoped Classical in
/-- The meaning of expressions as functions of `x` near the generic point. Other symbols stand for one. -/
def meaning (x : String) : Meaning Germ where
  num
    | .int k => k.toInt
    | .float _ => 0
  sym name := if name = x then of id .id else 1
  pow := pow
  call f functional subscript _ :=
    match functional, subscript with
    | [u], [] => fn f.name u
    | [u], [b] => ln u / ln b
    | _, _ => 0
  deriv a vars := if vars = [(x, 1)] then derivation a else 0
  integral _ _ _ _ := 0

theorem exists_derivation_fn (name : String) (u : Germ) :
    ∃ outer, derivation (fn name u) = outer * derivation u := by
  unfold fn
  split
  · exact ⟨_, derivation_sin u⟩
  · exact ⟨_, derivation_cos u⟩
  · exact ⟨_, derivation_sin_div_cos u⟩
  · rw [derivation.leibniz_inv, derivation_cos]
    exact ⟨-(cos u)⁻¹ ^ 2 * -sin u, by rw [smul_eq_mul, mul_assoc]⟩
  · exact ⟨_, derivation_exp u⟩
  · exact ⟨_, derivation_ln u⟩
  · exact ⟨_, derivation_sqrt u⟩
  · exact ⟨1, (one_mul _).symm⟩

/-- The laws of differentiation hold of germs. -/
theorem derives (x : String) : (meaning x).Derives derivation x where
  num_int k := rfl
  sym_self := by
    show derivation (if x = x then _ else _) = 1
    rw [if_pos rfl, derivation_of]
    exact of_eq_one.2 (.of_forall fun t => deriv_id t)
  sym_other y hy := by
    show derivation (if y = x then _ else _) = 0
    rw [if_neg hy, derivation.map_one_eq_zero]
  pow_one b := by
    have hone : pow b ((1 : ℤ) : Germ) = b := by rw [pow_int, zpow_one]
    rwa [Int.cast_one] at hone
  pow_zero b := by
    have hzero : pow b ((0 : ℤ) : Germ) = 1 := by rw [pow_int, zpow_zero]
    rwa [Int.cast_zero] at hzero
  one_pow := one_pow
  pow_const b _ := derivation_pow_const b
  pow := derivation_pow
  sin f u hf := by
    show derivation (fn f.name u) = cos u * derivation u
    rw [hf]
    exact derivation_sin u
  cos f u hf := by
    show derivation (fn f.name u) = -sin u * derivation u
    rw [hf]
    exact derivation_cos u
  tan f u hf := by
    show derivation (fn f.name u) = pow (cos u)⁻¹ 2 * derivation u
    rw [hf, pow_two]
    exact derivation_sin_div_cos u
  exp f u hf := by
    show derivation (fn f.name u) = exp u * derivation u
    rw [hf]
    exact derivation_exp u
  ln f u hf := by
    show derivation (fn f.name u) = pow u (-1) * derivation u
    rw [hf, pow_neg_one]
    exact derivation_ln u
  sqrt f u hf := by
    show derivation (fn f.name u) = pow 2 (-1) * pow (sqrt u) (-1) * derivation u
    rw [hf, pow_neg_one, pow_neg_one]
    exact derivation_sqrt u
  log f u b _ hb := by
    show derivation (ln u / ln b) = pow u (-1) * pow (ln b) (-1) * derivation u
    have hconst : derivation (ln b) = 0 := by rw [derivation_ln, hb, mul_zero]
    rw [derivation.leibniz_div_const _ _ hconst, derivation_ln, pow_neg_one, pow_neg_one,
      smul_eq_mul]
    ring
  chain f u := exists_derivation_fn f.name u
  deriv a := if_pos rfl

theorem calculus (x : String) : (meaning x).Calculus derivation x where
  toDerives := derives x
  pow_neg_one := pow_neg_one
  call_of_name _ _ u h := congrArg (fn · u) h

end Germ

end

end Workings
