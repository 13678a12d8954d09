import Mathlib.Data.Nat.Bitwise
import Mathlib.Logic.Function.Iterate

/-!
# Functions of words that respect exclusive or

## Main definitions

- `XorLinear` — functions that respect exclusive or

## Main results

- `XorLinear.ext` — such a function is known by its values at single bits
-/

namespace Words

def XorLinear (f : UInt64 → UInt64) : Prop := ∀ x y, f (x ^^^ y) = f x ^^^ f y

variable {f g : UInt64 → UInt64}

theorem xor_xor_xor_comm (a b c d : UInt64) : (a ^^^ b) ^^^ (c ^^^ d) = (a ^^^ c) ^^^ (b ^^^ d) := by
  rw [UInt64.xor_assoc, UInt64.xor_assoc, ← UInt64.xor_assoc b, ← UInt64.xor_assoc c,
    UInt64.xor_comm b c]

theorem xor_cancel (a b : UInt64) : a ^^^ b ^^^ b = a := by
  rw [UInt64.xor_assoc, UInt64.xor_self, UInt64.xor_zero]

theorem XorLinear.xor (hf : XorLinear f) (hg : XorLinear g) : XorLinear fun x => f x ^^^ g x := by
  intro x y
  dsimp only
  rw [hf, hg, xor_xor_xor_comm]

theorem XorLinear.comp (hf : XorLinear f) (hg : XorLinear g) : XorLinear fun x => f (g x) := by
  intro x y
  dsimp only
  rw [hg, hf]

theorem XorLinear.iterate (hf : XorLinear f) (n : ℕ) : XorLinear f^[n] := by
  induction n with
  | zero => exact fun _ _ => rfl
  | succ n ih =>
    intro x y
    rw [Function.iterate_succ_apply, Function.iterate_succ_apply, Function.iterate_succ_apply, hf, ih]

theorem or_eq_xor {a b : UInt64} (h : a &&& b = 0) : a ||| b = a ^^^ b := by
  have hand : a.toNat &&& b.toNat = 0 := by
    rw [← UInt64.toNat_and, h]
    rfl
  rw [← UInt64.toNat_inj, UInt64.toNat_or, UInt64.toNat_xor]
  refine Nat.eq_of_testBit_eq fun i => ?_
  have hbit : (a.toNat.testBit i && b.toNat.testBit i) = false := by
    rw [← Nat.testBit_and, hand, Nat.zero_testBit]
  rw [Nat.testBit_or, Nat.testBit_xor]
  revert hbit
  cases a.toNat.testBit i <;> cases b.toNat.testBit i <;> decide

theorem XorLinear.zero (hf : XorLinear f) : f 0 = 0 := by
  have h := hf 0 0
  rw [UInt64.xor_self] at h
  rw [h, UInt64.xor_self]

/-- A function that respects exclusive or is known by its values at single bits. -/
theorem XorLinear.ext (hf : XorLinear f) (hg : XorLinear g) {n : ℕ} (hn : n ≤ 64)
    (h : ∀ k < n, f (UInt64.ofNat (2 ^ k)) = g (UInt64.ofNat (2 ^ k))) {x : UInt64}
    (hx : x.toNat < 2 ^ n) : f x = g x := by
  induction n generalizing x with
  | zero =>
    have hzero : x = 0 := UInt64.toNat_inj.mp (Nat.lt_one_iff.mp hx)
    rw [hzero, hf.zero, hg.zero]
  | succ n ih =>
    have hprev : ∀ k < n, f (UInt64.ofNat (2 ^ k)) = g (UInt64.ofNat (2 ^ k)) :=
      fun k hk => h k (Nat.lt_succ_of_lt hk)
    by_cases hlow : x.toNat < 2 ^ n
    · exact ih (by omega) hprev hlow
    · have hpow : (UInt64.ofNat (2 ^ n)).toNat = 2 ^ n := by
        rw [UInt64.toNat_ofNat']
        exact Nat.mod_eq_of_lt (Nat.pow_lt_pow_right (by decide) (by omega))
      have hhigh : x.toNat.testBit n = true := by
        rw [Nat.testBit_eq_decide_div_mod_eq, decide_eq_true_eq]
        have hdiv : x.toNat / 2 ^ n = 1 := by
          refine Nat.div_eq_of_lt_le ?_ ?_
          · omega
          · rw [pow_succ] at hx
            omega
        rw [hdiv]
      have hrest : (x ^^^ UInt64.ofNat (2 ^ n)).toNat < 2 ^ n := by
        rw [UInt64.toNat_xor, hpow]
        refine Nat.lt_pow_two_of_testBit _ fun i hi => ?_
        rw [Nat.testBit_xor, Nat.testBit_two_pow]
        by_cases heq : n = i
        · rw [← heq, hhigh]
          simp
        · have hout : x.toNat.testBit i = false :=
            Nat.testBit_lt_two_pow (hx.trans_le (Nat.pow_le_pow_right (by decide) (by omega)))
          simp [hout, heq]
      have hsum : x = (x ^^^ UInt64.ofNat (2 ^ n)) ^^^ UInt64.ofNat (2 ^ n) := (xor_cancel _ _).symm
      rw [hsum, hf, hg, ih (by omega) hprev hrest, h n (Nat.lt_succ_self n)]

end Words
