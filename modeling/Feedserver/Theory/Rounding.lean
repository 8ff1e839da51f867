/-
# Theory.Rounding — natural numbers in a floating-point format

`roundEven p n` is the number with `p` significant bits that is nearest to `n`, and of two
that are equally near the one whose last bit is 0: what `n` becomes in a format of precision
`p` whose exponents do not run out. It is computed on the quotient and the remainder by the
spacing of such numbers around `n`.

* `roundEven_bounds`: a number is off by at most `n / 2 ^ p`, which is 0 if it fits in `p` bits.
-/
import Mathlib.Algebra.Group.Nat.Defs

namespace Feedserver.Theory

set_option autoImplicit false

/-- The quotient by the spacing, rounded to nearest, ties to even. -/
def nearestQuotient (n spacing : Nat) : Nat :=
  let q := n / spacing
  let r := n % spacing
  if 2 * r < spacing ∨ (2 * r = spacing ∧ q % 2 = 0) then q else q + 1

/-- `n` rounded to `p` significant bits. -/
def roundEven (p n : Nat) : Nat :=
  if n < 2 ^ p then n
  else
    let spacing := 2 ^ (Nat.log2 n + 1 - p)
    nearestQuotient n spacing * spacing

/-- The nearest multiple is off by half a spacing at most. -/
theorem nearestQuotient_bounds {n half : Nat} (positive : 0 < half) :
    nearestQuotient n (2 * half) * (2 * half) ≤ n + half ∧
      n ≤ nearestQuotient n (2 * half) * (2 * half) + half := by
  have split : 2 * half * (n / (2 * half)) + n % (2 * half) = n := Nat.div_add_mod n (2 * half)
  have inside : n % (2 * half) < 2 * half := Nat.mod_lt n (by omega)
  have commute : n / (2 * half) * (2 * half) = 2 * half * (n / (2 * half)) := Nat.mul_comm _ _
  unfold nearestQuotient
  simp only
  split
  · omega
  · rw [Nat.add_mul]
    omega

/-- Half a spacing is no more than the number's share of the precision. -/
theorem half_spacing_le {p n : Nat} (large : 2 ^ p ≤ n) :
    ∃ half, 0 < half ∧ 2 ^ (Nat.log2 n + 1 - p) = 2 * half ∧ half ≤ n / 2 ^ p := by
  have nonzero : n ≠ 0 := by
    have := Nat.two_pow_pos p
    omega
  have below : p ≤ Nat.log2 n := (Nat.le_log2 nonzero).2 large
  refine ⟨2 ^ (Nat.log2 n - p), Nat.two_pow_pos _, ?_, ?_⟩
  · rw [← Nat.pow_succ', Nat.succ_eq_add_one]
    congr 1
    omega
  · rw [Nat.le_div_iff_mul_le (Nat.two_pow_pos p), ← Nat.pow_add, Nat.sub_add_cancel below]
    exact Nat.log2_self_le nonzero

/-- Rounding is off by the number's share of the precision at most. -/
theorem roundEven_bounds (p n : Nat) :
    roundEven p n ≤ n + n / 2 ^ p ∧ n ≤ roundEven p n + n / 2 ^ p := by
  unfold roundEven
  split
  · exact ⟨Nat.le_add_right _ _, Nat.le_add_right _ _⟩
  · rename_i large
    obtain ⟨half, positive, spacing, small⟩ := half_spacing_le (Nat.le_of_not_lt large)
    have bounds := nearestQuotient_bounds (n := n) positive
    simp only [spacing]
    omega

/-- Between 8 and 16 the numbers with three bits are two apart: a tie goes to the even one. -/
example : (List.range 7).map (fun i => roundEven 3 (8 + i)) = [8, 8, 10, 12, 12, 12, 14] := by decide

end Feedserver.Theory
