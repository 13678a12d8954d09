import TCBackup.Lib.ByteFile
import Mathlib.Data.Nat.Digits.Lemmas

/-!
# Printed numbers

Numbers as `printf` prints them in a base up to ten, and their values.

## Main definitions

- `numeral`, `intNumeral` — the digits of a number, and a sign
- `padded` — zeros in front, up to a field width
- `numeralValue`, `intValue` — the number that a digit string denotes
-/

namespace ByteFile

/-- The ASCII code of a digit. -/
def digitByte (d : ℕ) : UInt8 := UInt8.ofNat (48 + d)

/-- The digits of `n`, highest first. -/
def numeral (b n : ℕ) : Bytes :=
  if n = 0 then [digitByte 0] else (Nat.digits b n).reverse.map digitByte

/-- `%d` -/
def intNumeral (x : ℤ) : Bytes :=
  if x < 0 then 45 :: numeral 10 x.natAbs else numeral 10 x.natAbs

/-- A field of at least `w` bytes, filled up with zeros from the left. -/
def padded (w : ℕ) (bs : Bytes) : Bytes := List.replicate (w - bs.length) (digitByte 0) ++ bs

def numeralValue (b : ℕ) (bs : Bytes) : ℕ := bs.foldl (fun a c => a * b + (c.toNat - 48)) 0

def intValue : Bytes → ℤ
  | 45 :: bs => -numeralValue 10 bs
  | bs => numeralValue 10 bs

theorem toNat_digitByte {d : ℕ} (h : d < 10) : (digitByte d).toNat = 48 + d := by
  rw [digitByte, UInt8.toNat_ofNat']
  omega

theorem numeralValue_digits {b : ℕ} (ds : List ℕ) (h : ∀ d ∈ ds, d < 10) :
    numeralValue b (ds.reverse.map digitByte) = Nat.ofDigits b ds := by
  rw [numeralValue, List.foldl_map, List.foldl_reverse]
  induction ds with
  | nil => simp
  | cons d ds ih =>
    rw [List.foldr_cons, ih fun x hx => h x (List.mem_cons_of_mem _ hx),
      toNat_digitByte (h d (by simp)), Nat.ofDigits_cons, Nat.mul_comm b]
    omega

theorem numeralValue_numeral {b : ℕ} (hb : 1 < b) (hb' : b ≤ 10) (n : ℕ) :
    numeralValue b (numeral b n) = n := by
  rw [numeral]
  split
  · next hn => simp [numeralValue, toNat_digitByte, hn]
  · rw [numeralValue_digits _ fun d hd => (Nat.digits_lt_base hb hd).trans_le hb',
      Nat.ofDigits_digits]

theorem numeralValue_padded (b w : ℕ) (bs : Bytes) :
    numeralValue b (padded w bs) = numeralValue b bs := by
  rw [padded, numeralValue, List.foldl_append]
  congr 1
  induction w - bs.length with
  | zero => rfl
  | succ k ih => simpa [List.replicate_succ, toNat_digitByte] using ih

/-- Number and padding determine each other. -/
theorem padded_numeral_inj {b : ℕ} (hb : 1 < b) (hb' : b ≤ 10) {w m n : ℕ}
    (h : padded w (numeral b m) = padded w (numeral b n)) : m = n := by
  have hv := congrArg (numeralValue b) h
  rwa [numeralValue_padded, numeralValue_padded, numeralValue_numeral hb hb',
    numeralValue_numeral hb hb'] at hv

theorem length_numeral_le {b n k : ℕ} (hb : 1 < b) (h : n < b ^ k) (hk : 0 < k) :
    (numeral b n).length ≤ k := by
  rw [numeral]
  split
  · rw [List.length_singleton]
    exact hk
  · next hn =>
    rw [List.length_map, List.length_reverse]
    exact (Nat.digits_length_le_iff hb n).mpr h

theorem length_padded {w : ℕ} {bs : Bytes} (h : bs.length ≤ w) : (padded w bs).length = w := by
  simp only [padded, List.length_append, List.length_replicate]
  omega

/-- No digit is a minus sign. -/
theorem numeral_ne_minus {b n : ℕ} (hb : 1 < b) (hb' : b ≤ 10) {bs : Bytes} :
    numeral b n ≠ 45 :: bs := by
  intro h
  have hmem : (45 : UInt8) ∈ numeral b n := by simp [h]
  rw [numeral] at hmem
  split at hmem
  · simp [digitByte] at hmem
  · obtain ⟨d, hd, hd'⟩ := List.mem_map.mp hmem
    have hlt := Nat.digits_lt_base hb (List.mem_reverse.mp hd)
    have := congrArg UInt8.toNat hd'
    rw [toNat_digitByte (by omega)] at this
    simp at this
    omega

theorem intValue_intNumeral (x : ℤ) : intValue (intNumeral x) = x := by
  rw [intNumeral]
  split
  · rw [intValue, numeralValue_numeral (by decide) (by decide)]
    omega
  · rw [intValue]
    · rw [numeralValue_numeral (by decide) (by decide)]
      omega
    · exact fun bs => numeral_ne_minus (by decide) (by decide)

theorem intNumeral_injective : Function.Injective intNumeral :=
  Function.LeftInverse.injective intValue_intNumeral

theorem digitByte_ne_zero {d : ℕ} (h : d < 10) : digitByte d ≠ 0 := by
  intro h0
  have := congrArg UInt8.toNat h0
  rw [toNat_digitByte h] at this
  simp at this

theorem numeral_ne_zero {b n : ℕ} (hb : 1 < b) (hb' : b ≤ 10) : (0 : UInt8) ∉ numeral b n := by
  intro h
  rw [numeral] at h
  split at h
  · exact digitByte_ne_zero (by decide) (List.mem_singleton.mp h).symm
  · obtain ⟨d, hd, hd'⟩ := List.mem_map.mp h
    have hlt := Nat.digits_lt_base hb (List.mem_reverse.mp hd)
    exact digitByte_ne_zero (by omega) hd'

end ByteFile
