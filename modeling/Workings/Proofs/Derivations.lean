import Mathlib.RingTheory.Derivation.Basic
import Workings.Proofs.Building

/-!
# The laws of calculus

`Meaning.Derives m D x` are the laws of a derivation `D` by the variable `x` on a commutative ring in which
expressions have their values: sums and products are those of the ring, powers and the functions of the
table of derivatives obey their chain rules, and any other function obeys some chain rule.
`Meaning.Calculus m D x` are these laws in a field, where a power by `-1` is the inverse.
-/

namespace Workings

namespace Meaning

section

variable {R : Type*} [CommRing R]

/-- What a function of one argument stands for. -/
def fn (m : Meaning R) (name : String) (u : R) : R :=
  m.call (.plain name 1) [u] [] []

/-- The laws of differentiation by `x`. A rule for a function holds of every function of its name. -/
structure Derives (m : Meaning R) (D : Derivation ℤ R R) (x : String) : Prop where
  num_int : ∀ k : Int64, m.num (.int k) = k.toInt
  sym_self : D (m.sym x) = 1
  sym_other : ∀ y, y ≠ x → D (m.sym y) = 0
  pow_one : ∀ b, m.pow b 1 = b
  pow_zero : ∀ b, m.pow b 0 = 1
  one_pow : ∀ c, m.pow 1 c = 1
  pow_const : ∀ b c, D c = 0 → D (m.pow b c) = c * m.pow b (c - 1) * D b
  pow : ∀ b c, D (m.pow b c) = m.pow b c * (D c * m.fn "ln" b + c * D b * m.pow b (-1))
  sin : ∀ f u, f.name = "sin" → D (m.call f [u] [] []) = m.fn "cos" u * D u
  cos : ∀ f u, f.name = "cos" → D (m.call f [u] [] []) = -m.fn "sin" u * D u
  tan : ∀ f u, f.name = "tan" → D (m.call f [u] [] []) = m.pow (m.fn "sec" u) 2 * D u
  exp : ∀ f u, f.name = "exp" → D (m.call f [u] [] []) = m.fn "exp" u * D u
  ln : ∀ f u, f.name = "ln" → D (m.call f [u] [] []) = m.pow u (-1) * D u
  sqrt : ∀ f u, f.name = "sqrt" →
    D (m.call f [u] [] []) = m.pow 2 (-1) * m.pow (m.fn "sqrt" u) (-1) * D u
  log : ∀ f u b, f.name = "log" → D b = 0 →
    D (m.call f [u] [b] []) = m.pow u (-1) * m.pow (m.fn "ln" b) (-1) * D u
  chain : ∀ f u, ∃ outer, D (m.call f [u] [] []) = outer * D u
  deriv : ∀ a, m.deriv a [(x, 1)] = D a

theorem Derives.num_eq {m : Meaning R} {D : Derivation ℤ R R} {x : String} (h : m.Derives D x)
    {k : Int64} {n : ℤ} (hk : k.toInt = n) : m.num (.int k) = n := by
  rw [h.num_int, hk]

theorem Derives.normalizes {m : Meaning R} {D : Derivation ℤ R R} {x : String}
    (h : m.Derives D x) : m.Normalizes where
  zero := (h.num_eq (by decide)).trans Int.cast_zero
  one := (h.num_eq (by decide)).trans Int.cast_one
  pow_one := h.pow_one
  pow_zero := h.pow_zero
  one_pow := h.one_pow

end

section

variable {R : Type*} [Field R]

/-- The laws of differentiation in a field. What a function stands for depends on its name only. -/
structure Calculus (m : Meaning R) (D : Derivation ℤ R R) (x : String) : Prop
    extends m.Derives D x where
  pow_neg_one : ∀ b, m.pow b (-1) = b⁻¹
  call_of_name : ∀ f g u, f.name = g.name → m.call f [u] [] [] = m.call g [u] [] []

theorem Calculus.sym_ne_zero {m : Meaning R} {D : Derivation ℤ R R} {x : String}
    (h : m.Calculus D x) : m.sym x ≠ 0 := by
  intro hzero
  have hone := h.sym_self
  rw [hzero, map_zero] at hone
  exact zero_ne_one hone

end

end Meaning

end Workings
