import Workings.Proofs.Slopes
import Workings.Proofs.SolvedProducts
import Workings.Proofs.SolvedSums

/-!
# Sums of derivatives at a point

The terms of a sum of derivatives are worked out one after the other. A value given for the variable is put
in once a derivative is taken, and gets into the derivatives that come after it as well
(`solve_loses_derivative`).

So the derivatives in front of the last one must leave nothing of the variable behind, as those of lines do.
The change that such a derivative makes reaches no other one, unless it is the same, and the value of the
sum is the sum of the values that the derivatives have when each is worked out by itself
(`solve_sumOfDerivatives`).
-/

namespace Workings

open Work (Delivered)

/-! ### At a point -/

/-- The bindings that give the variable its value, and nothing else. -/
def atPoint (x : String) (v : Int64) : Bindings where
  values := [(x, .int v)]

theorem atPoint_without (x : String) (v : Int64) : ((atPoint x v).without [x]).values = [] := by
  simp [atPoint, Bindings.without, dropValues]

/-- What comes of the derivative of a line, of which a change in front may have left its value: the sheet has
the same options and bindings, and if the open blocks have changed, it is by the replacement of such a
derivative. A strict sheet may end the work. -/
inductive Sheet.Took (x : String) (c : Int64) (s : Sheet) : Except Fault Expr × Sheet → Prop
  | kept {t : Sheet} (options : t.options = s.options) (bindings : t.bindings = s.bindings)
      (blocks : t.blocks = s.blocks) : Took x c s (.ok (.int c), t)
  | taken {t : Sheet} {p : Expr} (line : Expr.Line x c p) (options : t.options = s.options)
      (bindings : t.bindings = s.bindings)
      (blocks : t.blocks = s.blocks.map (·.map (·.replace (p.derivOnce x) (.int c)))) :
      Took x c s (.ok (.int c), t)
  | absent {part tree : Expr} {t : Sheet} : Took x c s (.error (.absent part tree), t)

namespace Simplify

variable {x : String} {v c k : Int64} {p : Expr} {as : List Int64} {s : Sheet}

theorem quiet_atPoint (hclamp : ∀ n : Int64, s.options.clamp (.int n) = .int n) :
    (s.aside p ((atPoint x v).without [x])).Quiet where
  value name := by
    show (((atPoint x v).without [x]).values.lookup name) = none
    rw [atPoint_without]
    rfl
  clamp := hclamp

theorem replaceSymbols_atPoint (x : String) (v : Int64) (p : Expr) :
    ((atPoint x v).without [x]).replaceSymbols p = p := by
  rw [Bindings.replaceSymbols, atPoint_without, Expr.withValues_nil]

/-- A change is made in the open blocks or left out, or it ends the work. -/
theorem exec_explain_cases (part result : Expr) (message : String) (s : Sheet) :
    (∃ t, Work.exec (Work.explain part result message) s = (.ok (), t) ∧ t.options = s.options ∧
      t.bindings = s.bindings ∧
      (t.blocks = s.blocks ∨ t.blocks = s.blocks.map (·.map (·.replace part result)))) ∨
    ∃ tree t, Work.exec (Work.explain part result message) s = (.error (.absent part tree), t) := by
  rw [Work.explain, Work.exec_changeWith]
  by_cases hfound : s.tree.has part = true
  · rw [if_pos hfound]
    exact .inl ⟨_, rfl, rfl, rfl, .inr rfl⟩
  rw [if_neg hfound]
  by_cases hstrict : s.strict = true
  · rw [if_pos hstrict]
    exact .inr ⟨_, _, rfl⟩
  · rw [if_neg hstrict]
    exact .inl ⟨_, rfl, rfl, rfl, .inl rfl⟩

/-- The derivative of a body that stays is replaced by what the rules make of it, in the open blocks too if it
is in the tree, and that is simplified. A strict sheet may end the work. -/
theorem exec_derivOnce_cases (hclamp : ∀ n : Int64, s.options.clamp (.int n) = .int n)
    (hbindings : s.bindings = atPoint x v) {depth : Nat} (hkeeps : Keeps (Expr.simplifyAt depth) p)
    {value : Expr} (hvalue : p.differentiate x = value) (hnew : (value == p.derivOnce x) = false) :
    (∃ t, Work.exec (Expr.simplifyAt (depth + 1) (p.derivOnce x)) s =
        Work.exec (Expr.simplifyAt depth value) t ∧
      t.options = s.options ∧ t.bindings = s.bindings ∧ (t.blocks = s.blocks ∨
        t.blocks = s.blocks.map (·.map (·.replace (p.derivOnce x) value)))) ∨
    ∃ part tree t, Work.exec (Expr.simplifyAt (depth + 1) (p.derivOnce x)) s =
      (.error (.absent part tree), t) := by
  subst hvalue
  obtain ⟨message, t, hst, hexec⟩ := exec_derivative (s := s) (Expr.simplifyAt depth)
    (by rw [hbindings]; exact replaceSymbols_atPoint x v p) hkeeps
    (by rw [hbindings]; exact quiet_atPoint hclamp) hnew
  change Work.exec (Expr.simplifyAt (depth + 1) (p.derivOnce x)) s = _ at hexec
  rw [hexec]
  rcases exec_explain_cases (p.derivOnce x) (p.differentiate x) message t with
    ⟨u, hexplain, hoptions, hbindings, hblocks⟩ | ⟨tree, u, hexplain⟩
  · rw [Work.exec_bind_ok hexplain]
    rw [hst.blocks] at hblocks
    exact .inl ⟨u, rfl, hoptions.trans hst.options, hbindings.trans hst.bindings, hblocks⟩
  · rw [Work.exec_bind_error hexplain]
    exact .inr ⟨_, _, _, rfl⟩

/-- The derivative of a polynomial of degree one is worked out to its slope. -/
theorem took_line (h : Expr.Line x c p) (hclamp : ∀ n : Int64, s.options.clamp (.int n) = .int n)
    (hbindings : s.bindings = atPoint x v) (depth : Nat) :
    s.Took x c (Work.exec (Expr.simplifyAt (depth + 4) (p.derivOnce x)) s) := by
  rcases exec_derivOnce_cases hclamp hbindings (keeps_normal h.normal depth) h.differentiate_eq rfl with
    ⟨t, hexec, hoptions, hbindings, hblocks⟩ | ⟨part, tree, t, hexec⟩
  · have hliteral : Work.exec (Expr.simplifyAt (depth + 3) (.int c)) t = (.ok (.int c), t) :=
      exec_literal (by rw [hoptions]; exact hclamp c)
    rw [hexec, hliteral]
    rcases hblocks with hkept | htaken
    · exact .kept hoptions hbindings hkept
    · exact .taken h hoptions hbindings htaken
  · rw [hexec]
    exact .absent

end Simplify

/-! ### The last derivative -/

/-- A symbol is not found in a number. -/
theorem Expr.replace_sym_int (x : String) (n : Int64) (value : Expr) :
    (Expr.int n).replace (.sym x) value = .int n := by
  obtain ⟨hliteral, hnegated⟩ := Target.within_eq (.int n) (.sym x)
  unfold Expr.replace
  refine Replacement.apply_num (Bool.or_eq_false_iff.2 ⟨?_, rfl⟩)
  rw [Target.isWhole, hliteral, hnegated]
  rfl

namespace Simplify

variable {x : String} {v k : Int64} {p : Expr} {as : List Int64} {s : Sheet} {o : Options}

/-- The derivative of a multiple of a power can be worked out exactly at the point: the options allow for
the exponent and do not have products of words or the lowered power estimated, and the value of the derivative
is a word. -/
structure Tame (o : Options) (v k : Int64) (as : List Int64) : Prop where
  two : 2 ≤ k.toInt
  limit : k ≤ o.maxExponent
  long : ∀ threshold ∈ o.magnitudeThreshold, 20 ≤ threshold
  estimate : k = 2 ∨ ∀ threshold ∈ o.magnitudeThreshold,
    ∀ digits ∈ powerDigits? (.int v) (.int (.ofInt (k.toInt - 1))), digits ≤ threshold
  coefficient : ∀ a ∈ as, a ≠ 0 ∧ a ≠ Int64.minValue
  small : ((as.map Int64.toInt).prod * k.toInt * v.toInt ^ (k.toInt - 1).toNat).natAbs < 2 ^ 63

theorem prod_front (as : List Int64) (k : Int64) :
    ((as ++ [k]).map Int64.toInt).prod = (as.map Int64.toInt).prod * k.toInt := by
  simp

namespace Tame

variable (h : Tame o v k as)

include h

/-- None of the numbers in front is zero. -/
theorem front : ∀ n ∈ as ++ [k], n ≠ 0 ∧ n ≠ Int64.minValue := by
  have htwo := h.two
  intro n hn
  rcases List.mem_append.1 hn with hn | hn
  · exact h.coefficient n hn
  · rw [List.mem_singleton.1 hn]
    constructor <;> rintro rfl <;> exact absurd htwo (by decide)

theorem any_zero_eq_false (x : String) : (Expr.derivedFactors x k as).any (·.isValue 0) = false := by
  refine List.any_eq_false.2 fun e he => ?_
  rcases List.mem_append.1 he with he | he
  · obtain ⟨n, hn, rfl⟩ := List.mem_map.1 he
    exact Bool.eq_false_iff.1 (beq_false_of_ne (a := n) (b := 0) (h.front n hn).1)
  · obtain rfl := List.mem_singleton.1 he
    rcases Expr.lowered_cases x k with heq | heq <;> rw [heq] <;> exact Bool.false_ne_true

/-- If the derivative has a word for its value, so has the lowered power. -/
theorem exists_power {c : Int64} (hmin : c ≠ Int64.minValue)
    (hc : c.toInt = (as.map Int64.toInt).prod * k.toInt * v.toInt ^ (k.toInt - 1).toNat) :
    ∃ d : Int64, d ≠ Int64.minValue ∧ d.toInt = v.toInt ^ (k.toInt - 1).toNat := by
  have hone : 0 < ((as ++ [k]).map Int64.toInt).prod.natAbs := by
    refine Int.natAbs_pos.2 (List.prod_ne_zero fun hmem => ?_)
    obtain ⟨n, hn, hzero⟩ := List.mem_map.1 hmem
    exact (h.front n hn).1 (Int64.toInt_inj.1 hzero)
  have hbound : (v.toInt ^ (k.toInt - 1).toNat).natAbs < 2 ^ 63 := by
    refine lt_of_le_of_lt ?_ (Number.Whole.natAbs_lt (n := .int c) hmin)
    rw [show (Number.int c).toInt = _ from hc, ← prod_front, Int.natAbs_mul]
    exact Nat.le_mul_of_pos_left _ hone
  obtain ⟨hwhole, hpower⟩ := Number.whole_ofInt hbound
  exact ⟨_, hwhole, hpower⟩

end Tame

/-- When the value is put in for the variable, it is put in wherever the variable stands in a block. -/
theorem exec_variable (hbindings : s.bindings = atPoint x v) :
    ∃ t, Work.exec (symbol x) s = (.ok (.int v), t) ∧ t.options = s.options ∧
      ∀ id index, t.blockItem? id index = s.blockItem? id index ∨
        t.blockItem? id index = (s.blockItem? id index).map (·.replace (.sym x) (.int v)) := by
  have hvalue : s.bindings.value? x = some (.int v) := by simp [hbindings, atPoint, Bindings.value?]
  refine ⟨_, Work.exec_symbol hvalue, ?_⟩
  by_cases hpresent : s.tree.has (.sym x) = true
  · rw [if_pos hpresent]
    exact ⟨rfl, fun id index => .inr (Sheet.blockItem?_accept s _ id index)⟩
  · rw [if_neg hpresent]
    exact ⟨rfl, fun id index => .inl rfl⟩

/-- The first of the items that are left of a block. -/
theorem blockItem?_of_drop {id index : Nat} {first : Expr} {rest : List Expr}
    (h : (s.block id).drop index = first :: rest) :
    s.blockItem? id index = some first ∧ (s.block id).drop (index + 1) = rest := by
  rw [Sheet.blockItem?, ← List.head?_drop, ← List.tail_drop, h]
  exact ⟨rfl, rfl⟩

/-- Numbers that are simplified to themselves, and one more factor behind them. -/
theorem delivered_blockFrom_last {simplify : Simplifier} {ns : List Int64} {e result : Expr}
    {id index : Nat} (hblock : (s.block id).drop index = ns.map .int ++ [e])
    (hns : ∀ n ∈ ns, Work.exec (simplify (.int n)) s = (.ok (.int n), s))
    (he : Delivered o (fun r => r = result) (Work.exec (simplify e) s)) :
    Delivered o (fun results => results = ns.map .int ++ [result])
      (Work.exec (blockFrom simplify id index (ns.length + 1)) s) := by
  induction ns generalizing index with
  | nil =>
    obtain ⟨hitem, -⟩ := blockItem?_of_drop hblock
    show Delivered o _ (Work.exec (blockFrom simplify id index (0 + 1)) s)
    rw [blockFrom, Work.exec_get_bind, hitem]
    refine Delivered.bind he fun r hr => ?_
    subst hr
    exact .pure rfl
  | cons n ns ih =>
    obtain ⟨hitem, hrest⟩ := blockItem?_of_drop hblock
    obtain ⟨hn, hns⟩ := List.forall_mem_cons.1 hns
    rw [List.length_cons, blockFrom, Work.exec_get_bind, hitem]
    dsimp only
    rw [Work.exec_bind_ok hn]
    refine Delivered.bind (ih hrest hns) fun results hresults => ?_
    subst hresults
    exact .pure rfl

section

variable (hclamp : ∀ n : Int64, o.clamp (.int n) = .int n)
  (h : Tame o v k as) (hoptions : s.options = o) (hbindings : s.bindings = atPoint x v)

include hclamp h hoptions hbindings

/-- The lowered power is worked out to the power of the value. -/
theorem delivered_lowered {c : Int64} (hmin : c ≠ Int64.minValue)
    (hc : c.toInt = v.toInt ^ (k.toInt - 1).toNat) (depth : Nat) :
    Delivered o (fun result => result = .int c)
      (Work.exec (Expr.simplifyAt (depth + 3) (Expr.lowered x k)) s) := by
  unfold Expr.lowered
  by_cases htwo : k = 2
  · subst htwo
    obtain rfl : c = v := Int64.toInt_inj.1 (by simpa using hc)
    obtain ⟨t, hexec, ht, -⟩ := exec_variable hbindings
    rw [if_pos rfl]
    show Delivered o _ (Work.exec (symbol x) s)
    rw [hexec]
    exact .ok rfl (ht.trans hoptions)
  rw [if_neg htwo]
  have htwo' := h.two
  have hrange : InRange (k.toInt - 1) := by
    obtain ⟨hlow, hhigh⟩ := inRange_toInt k
    constructor <;> omega
  have hexponent := toInt_ofInt hrange
  have hestimate := h.estimate.resolve_left htwo
  generalize Int64.ofInt (k.toInt - 1) = m at hexponent hestimate
  refine delivered_simplifyAt_power h.long hestimate hmin (fun _ => by omega) (by omega) ?_
    (by rw [hc, hexponent]) (hclamp v) (hclamp m) depth ?_
  · have hlimit := Int64.le_iff_toInt_le.1 h.limit
    exact Int64.le_iff_toInt_le.2 (by omega)
  obtain ⟨t, hexec, ht, hitems⟩ :=
    exec_variable (s := { s with blocks := s.blocks ++ [[.int m]] }) hbindings
  have hitem : t.blockItem? s.blocks.length 0 = some (.int m) := by
    have hopened : Sheet.blockItem? { s with blocks := s.blocks ++ [[.int m]] } s.blocks.length 0 =
        some (.int m) := by
      rw [Sheet.blockItem?, block_append]
      rfl
    rcases hitems s.blocks.length 0 with hkept | hkept
    · rw [hkept, hopened]
    · rw [hkept, hopened, Option.map_some, Expr.replace_sym_int]
  have hsymbol : Work.exec (Expr.simplifyAt (depth + 2) (.sym x))
      { s with blocks := s.blocks ++ [[.int m]] } = (.ok (.int v), t) := hexec
  rw [Work.exec_withBlock, Work.exec_bind_ok hsymbol, Work.exec_get_bind, hitem]
  exact .ok rfl (ht.trans hoptions)

/-- The factors that come of a multiple of a power are worked out one after the other. -/
theorem delivered_factors_lowered {d : Int64} (hmin : d ≠ Int64.minValue)
    (hd : d.toInt = v.toInt ^ (k.toInt - 1).toNat) (depth : Nat) :
    Delivered o (fun simplified => simplified = ((as ++ [k]).map Number.int ++ [Number.int d]).map .num)
      (Work.exec (siblings (Expr.simplifyAt (depth + 3)) (Expr.derivedFactors x k as)) s) := by
  have hnumbers : ∀ n ∈ as ++ [k], Work.exec (Expr.simplifyAt (depth + 3) (.int n))
      { s with blocks := s.blocks ++ [Expr.derivedFactors x k as] } =
        (.ok (.int n), { s with blocks := s.blocks ++ [Expr.derivedFactors x k as] }) :=
    fun n _ => exec_literal (by exact hoptions ▸ hclamp n)
  have hpower := delivered_lowered
    (s := { s with blocks := s.blocks ++ [Expr.derivedFactors x k as] })
    hclamp h hoptions hbindings hmin hd depth
  refine .withBlock ?_
  rw [block, Work.exec_get_bind, block_append, Expr.derivedFactors, List.length_append, List.length_map]
  refine (delivered_blockFrom_last (congrArg (List.drop 0) (block_append s _)) hnumbers hpower).mono
    fun results hresults => ?_
  rw [hresults, List.map_append (f := Expr.num), List.map_map]
  rfl

/-- The product that comes of a multiple of a power is worked out to its value at the point. -/
theorem delivered_product_lowered {c : Int64} (hmin : c ≠ Int64.minValue)
    (hc : c.toInt = (as.map Int64.toInt).prod * k.toInt * v.toInt ^ (k.toInt - 1).toNat) (depth : Nat) :
    Delivered o (fun result => result = .int c)
      (Work.exec (Expr.simplifyAt (depth + 4) (.prod (Expr.derivedFactors x k as))) s) := by
  obtain ⟨d, hdmin, hd⟩ := h.exists_power hmin hc
  have hsiblings := delivered_factors_lowered hclamp h hoptions hbindings hdmin hd depth
  refine delivered_product h.long hmin hoptions (fun hany => ?_) hsiblings ?_ ?_
  · rw [h.any_zero_eq_false x] at hany
    cases hany
  · intro n hn
    rcases List.mem_append.1 hn with hn | hn
    · obtain ⟨m, hm, rfl⟩ := List.mem_map.1 hn
      exact (h.front m hm).2
    · exact List.mem_singleton.1 hn ▸ hdmin
  · rw [hc, List.map_append, List.prod_append, List.map_map, ← prod_front, ← hd, List.map_singleton,
      List.prod_singleton]
    rfl

/-- The derivative of a multiple of a power is worked out to its value at the point. -/
theorem delivered_powered {c : Int64} (hp : Expr.Powered x k as p) (hmin : c ≠ Int64.minValue)
    (hc : c.toInt = (as.map Int64.toInt).prod * k.toInt * v.toInt ^ (k.toInt - 1).toNat) (depth : Nat) :
    Delivered o (fun result => result = .int c)
      (Work.exec (Expr.simplifyAt (depth + 5) (p.derivOnce x)) s) := by
  rcases exec_derivOnce_cases (hoptions ▸ hclamp) hbindings (keeps_powered h.two hp (depth + 1))
      (hp.differentiate_eq h.two) rfl with ⟨t, hexec, htoptions, htbindings, -⟩ | ⟨part, tree, t, hexec⟩
  · rw [hexec]
    exact delivered_product_lowered hclamp h (htoptions.trans hoptions) (htbindings.trans hbindings) hmin hc
      depth
  · rw [hexec]
    exact .absent

end

end Simplify

/-! ### One derivative after the other -/

namespace Simplify

open Workings.Expr (Line Powered Pending)

variable {x : String} {v c : Int64} {e : Expr} {s : Sheet} {o : Options}

/-- What the last term of the sum may be: it may also be the derivative of a power. -/
inductive Last (o : Options) (x : String) (v c : Int64) : Expr → Prop
  | pending {e : Expr} (h : Pending x c e) : Last o x v c e
  | power {k : Int64} {as : List Int64} {p : Expr} (power : Powered x k as p) (tame : Tame o v k as)
      (value : c.toInt = (as.map Int64.toInt).prod * k.toInt * v.toInt ^ (k.toInt - 1).toNat)
      (min : c ≠ Int64.minValue) : Last o x v c (p.derivOnce x)

theorem Last.replace (h : Last o x v c e) {q : Expr} {c' : Int64} (hq : Line x c' q) :
    Last o x v c (e.replace (q.derivOnce x) (.int c')) := by
  cases h with
  | pending h => exact .pending (h.replace hq)
  | power hp tame value min =>
    rw [hp.replace tame.two hq]
    exact .power hp tame value min

theorem block_of_map {t : Sheet} {f : Expr → Expr} (h : t.blocks = s.blocks.map (·.map f)) (id : Nat) :
    t.block id = (s.block id).map f := by
  rw [Sheet.block, h, Sheet.block]
  exact List.getD_map s.blocks [] (List.map f)

theorem took_pending (h : Pending x c e) (hclamp : ∀ n : Int64, s.options.clamp (.int n) = .int n)
    (hbindings : s.bindings = atPoint x v) (depth : Nat) :
    s.Took x c (Work.exec (Expr.simplifyAt (depth + 4) e) s) := by
  cases h with
  | ahead hp => exact took_line hp hclamp hbindings depth
  | done =>
    have hliteral : Work.exec (Expr.simplifyAt (depth + 4) (.int c)) s = (.ok (.int c), s) :=
      exec_literal (hclamp c)
    rw [hliteral]
    exact .kept rfl rfl rfl

section

variable (hclamp : ∀ n : Int64, o.clamp (.int n) = .int n)
  (hoptions : s.options = o) (hbindings : s.bindings = atPoint x v)

include hclamp hoptions hbindings

theorem delivered_pending (h : Pending x c e) (depth : Nat) : Delivered o (fun result => result = .int c)
    (Work.exec (Expr.simplifyAt (depth + 4) e) s) := by
  have htook := took_pending h (hoptions ▸ hclamp) hbindings depth
  generalize Work.exec _ s = outcome at htook ⊢
  cases htook with
  | kept options _ _ => exact .ok rfl (options.trans hoptions)
  | taken _ options _ _ => exact .ok rfl (options.trans hoptions)
  | absent => exact .absent

theorem delivered_last (h : Last o x v c e) (depth : Nat) : Delivered o (fun result => result = .int c)
    (Work.exec (Expr.simplifyAt (depth + 5) e) s) := by
  cases h with
  | pending h => exact delivered_pending hclamp hoptions hbindings h (depth + 1)
  | power hp tame value min =>
    exact delivered_powered hclamp tame hoptions hbindings hp min value depth

end

section

variable (hclamp : ∀ n : Int64, o.clamp (.int n) = .int n)

include hclamp

/-- The terms of the sum are worked out one after the other. What is left of them stays what it is when one
of them is replaced by its value. -/
theorem delivered_terms {cs : List Int64} {items : List Expr} {id index : Nat}
    (hoptions : s.options = o) (hbindings : s.bindings = atPoint x v)
    (hblock : (s.block id).drop index = items ++ [e]) (hitems : List.Forall₂ (Pending x) cs items)
    (hlast : Last o x v c e) (depth : Nat) :
    Delivered o (fun results => results = (cs ++ [c]).map .int)
      (Work.exec (blockFrom (Expr.simplifyAt (depth + 5)) id index (cs.length + 1)) s) := by
  induction cs generalizing s index items e with
  | nil =>
    cases hitems
    obtain ⟨hitem, -⟩ := blockItem?_of_drop hblock
    show Delivered o _ (Work.exec (blockFrom _ id index (0 + 1)) s)
    rw [blockFrom, Work.exec_get_bind, hitem]
    refine (delivered_last hclamp hoptions hbindings hlast depth).bind fun r hr => ?_
    subst hr
    exact .pure rfl
  | cons c' cs ih =>
    obtain ⟨item, items, hitem, hothers, rfl⟩ := List.forall₂_cons_left_iff.1 hitems
    rw [List.cons_append] at hblock
    obtain ⟨hfirst, hrest⟩ := blockItem?_of_drop hblock
    have htook := took_pending hitem (hoptions ▸ hclamp) hbindings (depth + 1)
    rw [List.length_cons, blockFrom, Work.exec_get_bind, hfirst]
    dsimp only
    rcases hexec : Work.exec (Expr.simplifyAt (depth + 5) item) s with ⟨outcome, t⟩
    rw [hexec] at htook
    cases htook with
    | kept options bindings blocks =>
      have hblock : (t.block id).drop (index + 1) = items ++ [e] := by
        rw [Sheet.block, blocks, ← hrest]
        rfl
      rw [Work.exec_bind_ok hexec]
      refine (ih (options.trans hoptions) (bindings.trans hbindings) hblock hothers hlast).bind
        fun results hresults => ?_
      subst hresults
      exact .pure rfl
    | @taken _ p line options bindings blocks =>
      have hblock : (t.block id).drop (index + 1) =
          items.map (·.replace (p.derivOnce x) (.int c')) ++ [e.replace (p.derivOnce x) (.int c')] := by
        rw [block_of_map blocks, ← List.map_drop, hrest, List.map_append, List.map_singleton]
      have hitems : List.Forall₂ (Pending x) cs (items.map (·.replace (p.derivOnce x) (.int c'))) :=
        List.forall₂_map_right_iff.2 (hothers.imp fun _ _ h => h.replace line)
      rw [Work.exec_bind_ok hexec]
      refine (ih (options.trans hoptions) (bindings.trans hbindings) hblock hitems (hlast.replace line)).bind
        fun results hresults => ?_
      subst hresults
      exact .pure rfl
    | absent =>
      rw [Work.exec_bind_error hexec]
      exact .absent

/-- A sum of derivatives of lines, but for the last term, is simplified to the sum of their values. -/
theorem delivered_sumOfDerivatives {cs : List Int64} {items : List Expr}
    (hoptions : s.options = o) (hbindings : s.bindings = atPoint x v)
    (hitems : List.Forall₂ (Pending x) cs items) (hlast : Last o x v c e)
    (hmin : ∀ n ∈ cs ++ [c], n ≠ Int64.minValue)
    (hfronts : ∀ front, front <+: cs ++ [c] → ((front.map Int64.toInt).sum).natAbs < 2 ^ 63)
    {total : Int64} (htotal : total.toInt = ((cs ++ [c]).map Int64.toInt).sum) (depth : Nat) :
    Delivered o (fun result => result = .int total)
      (Work.exec (Expr.simplifyAt (depth + 6) (.sum (items ++ [e]))) s) := by
  refine delivered_sum hmin hfronts htotal (.withBlock ?_)
  rw [block, Work.exec_get_bind, block_append, List.length_append, ← hitems.length_eq]
  have hblock : (Sheet.block { s with blocks := s.blocks ++ [items ++ [e]] } s.blocks.length).drop 0 =
      items ++ [e] := congrArg (List.drop 0) (block_append s _)
  have hterms := delivered_terms hclamp (by exact hoptions) (by exact hbindings) hblock hitems hlast depth
  refine hterms.mono fun results hresults => ?_
  rw [hresults, List.map_map]
  rfl

end

end Simplify

/-! ### Solutions -/

/-- The sum of the derivatives of some bodies by a variable. -/
def sumOfDerivatives (x : String) (bodies : List Expr) : Expr :=
  .sum (bodies.map (·.derivOnce x))

section

variable {x : String} {v c : Int64} {p : Expr} {options : Options} {strict : Bool}

theorem replaceSymbols_derivOnce (x : String) (v : Int64) (p : Expr) :
    (atPoint x v).replaceSymbols (p.derivOnce x) = p.derivOnce x := by
  have hdrop : dropValues [x] [(x, Expr.int v)] = [] := by simp [dropValues]
  show Expr.deriv (p.withValues (dropValues [x] [(x, .int v)])) [(x, 1)] = _
  rw [hdrop, Expr.withValues_nil]
  rfl

theorem replaceSymbols_sumOfDerivatives (x : String) (v : Int64) (bodies : List Expr) :
    (atPoint x v).replaceSymbols (sumOfDerivatives x bodies) = sumOfDerivatives x bodies := by
  show Expr.sum (Expr.allWithValues _ _) = Expr.sum _
  rw [Expr.allWithValues_eq_map, List.map_map]
  exact congrArg Expr.sum (List.map_congr_left fun p _ => replaceSymbols_derivOnce x v p)

/-- The value of the derivative of the last body is a word that can be found by itself, and in the sum. -/
theorem exists_last {last : Expr} (h : (∃ c, Expr.Line x c last) ∨
      ∃ k as, Expr.Powered x k as last ∧ Simplify.Tame options v k as) :
    ∃ c, Simplify.Last options x v c (last.derivOnce x) := by
  rcases h with ⟨c, h⟩ | ⟨k, as, h, htame⟩
  · exact ⟨c, .pending (.ahead h)⟩
  · obtain ⟨hwhole, hvalue⟩ := Number.whole_ofInt htame.small
    exact ⟨.ofInt _, .power h htame hvalue hwhole⟩

variable (hclamp : ∀ n : Int64, options.clamp (.int n) = .int n)

include hclamp

/-- The derivative of a line or of a power is found by itself. -/
theorem solve_last (h : Simplify.Last options x v c (p.derivOnce x)) :
    (∀ result sheet, solve (p.derivOnce x) (atPoint x v) options strict = .ok (result, sheet) →
        result = .int c) ∧
      (strict = false →
        ∃ sheet, solve (p.derivOnce x) (atPoint x v) options strict = .ok (.int c, sheet)) :=
  solve_of_delivered (replaceSymbols_derivOnce x v p)
    (Simplify.delivered_last hclamp rfl rfl h 65531)

/-- The word `r` is the value of the derivative of a body at a point when it is worked out by itself. -/
def DerivativeIs (options : Options) (strict : Bool) (x : String) (v : Int64) (p : Expr) (r : Int64) :
    Prop :=
  ∃ sheet, solve (p.derivOnce x) (atPoint x v) options strict = .ok (.int r, sheet)

theorem DerivativeIs.eq (h : Simplify.Last options x v c (p.derivOnce x)) {r : Int64}
    (hr : DerivativeIs options strict x v p r) : r = c := by
  obtain ⟨sheet, hsolve⟩ := hr
  have hresult := (solve_last hclamp h).1 _ sheet hsolve
  injection hresult with hnumber
  injection hnumber

/-- The results of the separate runs are the values of the derivatives. -/
theorem exists_values {bodies : List Expr} {last : Expr} {rs : List Int64}
    (hbodies : ∀ p ∈ bodies, ∃ c, Expr.Line x c p)
    (hlast : Simplify.Last options x v c (last.derivOnce x))
    (hown : List.Forall₂ (DerivativeIs options strict x v) (bodies ++ [last]) rs) :
    ∃ cs, List.Forall₂ (Expr.Pending x) cs (bodies.map (·.derivOnce x)) ∧ rs = cs ++ [c] := by
  induction bodies generalizing rs with
  | nil =>
    obtain ⟨r, _, hr, hnone, rfl⟩ := List.forall₂_cons_left_iff.1 hown
    cases hnone
    exact ⟨[], .nil, congrArg ([·]) (hr.eq hclamp hlast)⟩
  | cons p bodies ih =>
    obtain ⟨⟨c', hline⟩, hbodies⟩ := List.forall_mem_cons.1 hbodies
    obtain ⟨r, rs, hr, hothers, rfl⟩ := List.forall₂_cons_left_iff.1 hown
    obtain ⟨cs, hcs, rfl⟩ := ih hbodies hothers
    obtain rfl := hr.eq hclamp (.pending (.ahead hline))
    exact ⟨r :: cs, .cons (.ahead hline) hcs, rfl⟩

/-- The value of a sum of derivatives at a point is the sum of the values that the derivatives have when each
is worked out by itself, as long as all derivatives but the last one are those of lines and the last one is
that of a line or of a power. On a tolerant sheet there is a solution. -/
theorem solve_sumOfDerivatives {bodies : List Expr} {last : Expr}
    (hbodies : ∀ p ∈ bodies, ∃ c, Expr.Line x c p)
    (hlast : (∃ c, Expr.Line x c last) ∨
      ∃ k as, Expr.Powered x k as last ∧ Simplify.Tame options v k as)
    {rs : List Int64} (hown : List.Forall₂ (DerivativeIs options strict x v) (bodies ++ [last]) rs)
    (hmin : ∀ r ∈ rs, r ≠ Int64.minValue)
    (hfronts : ∀ front, front <+: rs → ((front.map Int64.toInt).sum).natAbs < 2 ^ 63) :
    (∀ result sheet,
      solve (sumOfDerivatives x (bodies ++ [last])) (atPoint x v) options strict = .ok (result, sheet) →
        result = .int (.ofInt (rs.map Int64.toInt).sum)) ∧
    (strict = false → ∃ sheet,
      solve (sumOfDerivatives x (bodies ++ [last])) (atPoint x v) options strict =
        .ok (.int (.ofInt (rs.map Int64.toInt).sum), sheet)) := by
  obtain ⟨c, hlast⟩ := exists_last hlast
  obtain ⟨cs, hitems, rfl⟩ := exists_values hclamp hbodies hlast hown
  obtain ⟨-, hsum⟩ := Number.whole_ofInt (hfronts _ (List.prefix_refl _))
  have hterms : sumOfDerivatives x (bodies ++ [last]) =
      .sum (bodies.map (·.derivOnce x) ++ [last.derivOnce x]) :=
    congrArg Expr.sum List.map_append
  refine solve_of_delivered (replaceSymbols_sumOfDerivatives x v _) ?_
  rw [hterms]
  exact Simplify.delivered_sumOfDerivatives (s := Sheet.new _ _ _ _) hclamp rfl rfl hitems hlast
    hmin hfronts hsum 65530

end

/-- Options under which no digits are estimated. -/
def estimateNothing : Options := { magnitudeThreshold := none, calculator := { enabled := false } }

/-- So `d/dx x ^ 2 + d/dx x ^ 3` at `2` comes out as `4`, although the second derivative is `12`. -/
theorem solve_loses_derivative :
    (∃ result sheet, solve (.sum [.derivOnce (.pow (.sym "x") 2) "x",
        .derivOnce (.pow (.sym "x") 3) "x"]) { values := [("x", 2)] } estimateNothing true =
          .ok (result, sheet) ∧
      sheet.status = .exact ∧ sheet.approximate = false ∧ (result == 4) = true) ∧
    ∃ result sheet, solve (.derivOnce (.pow (.sym "x") 3) "x") { values := [("x", 2)] }
      estimateNothing true = .ok (result, sheet) ∧ (result == 12) = true := by
  refine ⟨?_, exists_of_solves (p := fun result _ => result == 12) (by decide +kernel)⟩
  obtain ⟨result, sheet, hsolve, h⟩ := exists_of_solves
    (p := fun result sheet => decide (sheet.status = .exact) && (!sheet.approximate && result == 4))
    (show Solves (.sum [.derivOnce (.pow (.sym "x") 2) "x", .derivOnce (.pow (.sym "x") 3) "x"])
      { values := [("x", 2)] } estimateNothing true _ = true by decide +kernel)
  refine ⟨result, sheet, hsolve, ?_⟩
  simpa using h

/-- At `2` the derivatives of `3 * x + 5`, `x` and `4 * x ^ 3` are `3`, `1` and `48`. -/
theorem solve_sumOfDerivatives_cubic :
    ∃ sheet, solve (sumOfDerivatives "x" [.sum [.prod [.int 3, .sym "x"], .int 5], .sym "x",
      .prod [.int 4, .pow (.sym "x") (.int 3)]]) (atPoint "x" 2) estimateNothing false =
        .ok (.int 52, sheet) := by
  have hclamp (n : Int64) : estimateNothing.clamp (.int n) = .int n :=
    Simplify.clamp_int (by decide +kernel) rfl n
  have hraised : Expr.Line "x" 3 (.sum [.prod [.int 3, .sym "x"], .int 5]) :=
    .raised (.scaled (by decide) (by decide)) (by decide)
  have hsym : Expr.Line "x" 1 (.sym "x") := .multiple .once
  have hpower : Expr.Powered "x" 3 [4] (.prod [.int 4, .pow (.sym "x") (.int 3)]) :=
    .scaled (by decide) (by decide)
  have htame : Simplify.Tame estimateNothing 2 3 [4] :=
    ⟨by decide, by decide, nofun, .inr nofun, List.forall_mem_singleton.2 ⟨by decide, by decide⟩,
      by decide +kernel⟩
  have hown {p : Expr} {c : Int64} (h : Simplify.Last estimateNothing "x" 2 c (p.derivOnce "x")) :
      DerivativeIs estimateNothing false "x" 2 p c :=
    (solve_last hclamp h).2 rfl
  have hrs : List.Forall₂ (DerivativeIs estimateNothing false "x" 2)
      [.sum [.prod [.int 3, .sym "x"], .int 5], .sym "x", .prod [.int 4, .pow (.sym "x") (.int 3)]]
      [3, 1, 48] := by
    refine .cons (hown (.pending (.ahead hraised))) (.cons (hown (.pending (.ahead hsym))) ?_)
    exact .cons (hown (.power hpower htame (by decide) (by decide))) .nil
  have hfronts : ∀ front ∈ List.inits [3, 1, 48], ((front.map Int64.toInt).sum).natAbs < 2 ^ 63 := by
    decide +kernel
  have hbodies : ∀ p ∈ [.sum [.prod [.int 3, .sym "x"], .int 5], .sym "x"], ∃ c, Expr.Line "x" c p :=
    List.forall_mem_cons.2 ⟨⟨3, hraised⟩, List.forall_mem_singleton.2 ⟨1, hsym⟩⟩
  have hmin : ∀ r ∈ [3, 1, 48], r ≠ Int64.minValue := by
    simp only [List.forall_mem_cons]
    exact ⟨by decide, by decide, by decide, fun _ hr => nomatch hr⟩
  exact (solve_sumOfDerivatives hclamp hbodies (.inr ⟨3, [4], hpower, htame⟩) hrs hmin
    fun front hfront => hfronts front ((List.mem_inits _ _).2 hfront)).2 rfl

end Workings
