import Mathlib.Algebra.Field.ZMod
import Mathlib.Algebra.Polynomial.FieldDivision
import Mathlib.Data.Nat.Bitwise
import Mathlib.Data.Nat.Size

/-!
# Numbers as polynomials over the field of two elements

The bits of a number are the coefficients of a polynomial. Exclusive or is the sum, and a
left shift is the product with a power of `X`.

## Main definitions

- `poly` — the polynomial of a number

## Main results

- `poly_xor`, `poly_two_pow_mul_add` — what the operations of words are
- `degree_poly` — the degree is the position of the highest bit
- `poly_mod_of_lt`, `poly_xor_mod` — remainders
-/

namespace BinaryPoly

open Polynomial

noncomputable def poly (n : ℕ) : (ZMod 2)[X] :=
  ∑ i ∈ Finset.range n.size, if n.testBit i then X ^ i else 0

theorem coeff_poly (n i : ℕ) : (poly n).coeff i = if n.testBit i then 1 else 0 := by
  have hterm : ∀ j, (if n.testBit j then X ^ j else 0 : (ZMod 2)[X]).coeff i =
      if i = j then (if n.testBit i then 1 else 0) else 0 := by
    intro j
    by_cases hij : i = j
    · subst hij
      cases n.testBit i <;> simp
    · cases n.testBit j <;> simp [coeff_X_pow, hij]
  rw [poly, finsetSum_coeff, Finset.sum_congr rfl fun j _ => hterm j, Finset.sum_ite_eq]
  split
  · rfl
  · next hout =>
    have hlt : n < 2 ^ i := Nat.size_le.mp (not_lt.mp (by simpa using hout))
    rw [Nat.testBit_lt_two_pow hlt]
    rfl

theorem poly_injective : Function.Injective poly := by
  intro a b h
  refine Nat.eq_of_testBit_eq fun i => ?_
  have hcoeff := congrArg (fun p : (ZMod 2)[X] => p.coeff i) h
  simp only [coeff_poly] at hcoeff
  revert hcoeff
  cases a.testBit i <;> cases b.testBit i <;> simp

@[simp] theorem poly_zero : poly 0 = 0 := rfl

@[simp] theorem poly_one : poly 1 = 1 := by
  simp [poly]

theorem poly_ne_zero {n : ℕ} (h : n ≠ 0) : poly n ≠ 0 := fun hzero => h (poly_injective hzero)

theorem poly_xor (a b : ℕ) : poly (a ^^^ b) = poly a + poly b := by
  ext i
  rw [coeff_add, coeff_poly, coeff_poly, coeff_poly, Nat.testBit_xor]
  cases a.testBit i <;> cases b.testBit i <;> decide

/-- A number of `k` bits goes below a shifted one. -/
theorem poly_two_pow_mul_add (a : ℕ) {b k : ℕ} (h : b < 2 ^ k) :
    poly (2 ^ k * a + b) = X ^ k * poly a + poly b := by
  ext i
  rw [coeff_add, coeff_X_pow_mul', coeff_poly, coeff_poly, coeff_poly,
    Nat.testBit_two_pow_mul_add a h]
  by_cases hi : i < k
  · simp [hi, Nat.not_le.mpr hi]
  · have hbit : b.testBit i = false :=
      Nat.testBit_lt_two_pow (h.trans_le (Nat.pow_le_pow_right (by decide) (not_lt.mp hi)))
    simp [hi, not_lt.mp hi, hbit]

theorem poly_two_pow_mul (a k : ℕ) : poly (2 ^ k * a) = X ^ k * poly a := by
  have h := poly_two_pow_mul_add a (Nat.two_pow_pos k)
  rwa [Nat.add_zero, poly_zero, add_zero] at h

theorem degree_poly_lt {n k : ℕ} (h : n < 2 ^ k) : (poly n).degree < k := by
  rw [degree_lt_iff_coeff_zero]
  intro i hi
  rw [coeff_poly, Nat.testBit_lt_two_pow (h.trans_le (Nat.pow_le_pow_right (by decide) hi))]
  rfl

theorem testBit_size_sub_one {n : ℕ} (h : n ≠ 0) : n.testBit (n.size - 1) = true := by
  have hpos : 0 < n.size := Nat.size_pos.mpr (Nat.pos_of_ne_zero h)
  have hle : 2 ^ (n.size - 1) ≤ n := Nat.lt_size.mp (by omega)
  have hlt : n < 2 ^ (n.size - 1 + 1) := by
    rw [Nat.sub_add_cancel hpos]
    exact Nat.lt_size_self n
  rw [Nat.testBit_eq_decide_div_mod_eq, decide_eq_true_eq]
  have hdiv : n / 2 ^ (n.size - 1) = 1 := by
    rw [Nat.div_eq_iff (by positivity)]
    rw [pow_succ] at hlt
    omega
  rw [hdiv]

theorem degree_poly {n : ℕ} (h : n ≠ 0) : (poly n).degree = (n.size - 1 : ℕ) := by
  have hpos : 0 < n.size := Nat.size_pos.mpr (Nat.pos_of_ne_zero h)
  refine degree_eq_of_le_of_coeff_ne_zero ?_ ?_
  · refine Order.lt_succ_iff.mp ?_
    have hlt := degree_poly_lt (Nat.lt_size_self n)
    rw [← Nat.sub_add_cancel hpos] at hlt
    exact_mod_cast hlt
  · rw [coeff_poly, testBit_size_sub_one h]
    exact one_ne_zero

/-- What has fewer bits than the divisor is its own remainder. -/
theorem poly_mod_of_lt {a d : ℕ} (hd : d ≠ 0) (h : a < 2 ^ (d.size - 1)) :
    poly a % poly d = poly a := by
  rw [mod_eq_self_iff (poly_ne_zero hd), degree_poly hd]
  exact degree_poly_lt h

/-- Adding a multiple of the divisor keeps the remainder. -/
theorem add_mod_of_dvd {p q r : (ZMod 2)[X]} (h : q ∣ r) : (p + r) % q = p % q := by
  rw [add_mod, EuclideanDomain.mod_eq_zero.mpr h, add_zero]

theorem mod_mod (p q : (ZMod 2)[X]) : p % q % q = p % q := by
  refine mod_eq_of_dvd_sub ?_
  rw [EuclideanDomain.mod_eq_sub_mul_div, sub_sub_cancel_left, dvd_neg]
  exact dvd_mul_right _ _

theorem mul_mod_mod (p r q : (ZMod 2)[X]) : p * (r % q) % q = p * r % q := by
  rw [mul_mod, mod_mod, ← mul_mod]

/-- Two numbers with the same highest bit. -/
theorem xor_lt_two_pow {a b i : ℕ} (ha : a < 2 ^ (i + 1)) (hb : b < 2 ^ (i + 1))
    (hbit : a.testBit i = b.testBit i) : a ^^^ b < 2 ^ i := by
  refine Nat.lt_pow_two_of_testBit _ fun j hj => ?_
  rw [Nat.testBit_xor]
  rcases Nat.eq_or_lt_of_le hj with rfl | hlt
  · rw [hbit, Bool.xor_self]
  · have hle : 2 ^ (i + 1) ≤ 2 ^ j := Nat.pow_le_pow_right (by decide) hlt
    rw [Nat.testBit_lt_two_pow (ha.trans_le hle), Nat.testBit_lt_two_pow (hb.trans_le hle)]
    rfl

end BinaryPoly
