import TCBackup.Client.RabinWindow
import TCBackup.Lib.BinaryPoly

/-!
# The arithmetic of polynomials (`client/lib/rabin.c`)

A word holds the coefficients of a polynomial over the field of two elements. Here every
shift is by less than 64 places and every read of `bytemsb` is inside of the table, or else
the function has no value.

## Main definitions

- `lshift`, `rshift` — the shifts of the language
- `polymult`, `polymod`, `polymmult` — the functions with these shifts
- `value`, `value₂` — the polynomials of one and of two words

## Main results

- `polymod_eq`, `polymult_eq`, `polymmult_eq` — no shift is by 64 places or more
- `value₂_polymult`, `value_polymod` — product and remainder
- `polynomial_arithmetic` — both together
-/

namespace TCBackup.Client.Polynomials

open Words BinaryPoly Polynomial

/-- `v << i`, which is defined for less than 64 places. -/
def lshift (v : UInt64) (i : ℤ) : Option UInt64 :=
  if 0 ≤ i ∧ i < 64 then some (shl v i.toNat) else none

/-- `v >> i` -/
def rshift (v : UInt64) (i : ℤ) : Option UInt64 :=
  if 0 ≤ i ∧ i < 64 then some (shr v i.toNat) else none

/-- `bytemsb` -/
def bytemsb : List ℕ :=
  [0, 1] ++ List.replicate 2 2 ++ List.replicate 4 3 ++ List.replicate 8 4 ++
    List.replicate 16 5 ++ List.replicate 32 6 ++ List.replicate 64 7 ++ List.replicate 128 8

def fls32 (v : UInt32) : Option ℕ :=
  if v &&& 0xffff0000 ≠ 0 then
    if v &&& 0xff000000 ≠ 0 then bytemsb[(v >>> 24).toNat]?.map fun b => 24 + b
    else bytemsb[(v >>> 16).toNat]?.map fun b => 16 + b
  else if v &&& 0x0000ff00 ≠ 0 then bytemsb[(v >>> 8).toNat]?.map fun b => 8 + b
  else bytemsb[v.toNat]?

def fls64 (v : UInt64) : Option ℕ :=
  let h := (v >>> 32).toUInt32
  if h ≠ 0 then (fls32 h).map fun b => 32 + b else fls32 v.toUInt32

/-- `v & ((uint64_t) 1 << i)` -/
def testBit (v : UInt64) (i : ℤ) : Option Bool := (lshift 1 i).map fun b => v &&& b ≠ 0

/-- One round of the loop of `polymult`. -/
def multRound (x y : UInt64) (p : UInt64 × UInt64) (i : ℕ) : Option (UInt64 × UInt64) := do
  if ← testBit x i then return (p.1 ^^^ (← rshift y (64 - i)), p.2 ^^^ (← lshift y i))
  return p

/-- `polymult` -/
def polymult (x y : UInt64) : Option (UInt64 × UInt64) :=
  (List.range' 1 63).foldlM (multRound x y) (0, if x &&& 1 ≠ 0 then y else 0)

/-- One round of the first loop of `polymod`. -/
def highRound (d : UInt64) (n : UInt64 × UInt64) (i : ℕ) : Option (UInt64 × UInt64) := do
  if ← testBit n.1 i then
    return (n.1 ^^^ (← rshift d (63 - i)), n.2 ^^^ (← lshift d (i + 1)))
  return n

/-- One round of the second loop of `polymod`. -/
def lowRound (d : UInt64) (nl : UInt64) (i : ℕ) : Option UInt64 := do
  if ← testBit nl i then return nl ^^^ (← rshift d (63 - i))
  return nl

/-- `polymod` -/
def polymod (nh nl d : UInt64) : Option UInt64 := do
  let k : ℤ := (← fls64 d) - 1
  let d ← lshift d (63 - k)
  let (_, nl) ←
    if nh ≠ 0 then
      (List.range 63).reverse.foldlM (highRound d)
        (if nh &&& 0x8000000000000000 ≠ 0 then nh ^^^ d else nh, nl)
    else some (nh, nl)
  (List.range' k.toNat (64 - k.toNat)).reverse.foldlM (lowRound d) nl

/-- `polymmult` -/
def polymmult (x y d : UInt64) : Option UInt64 := do
  let (h, l) ← polymult x y
  polymod h l d

-- ════════════════════════════════════════════════════════════════════════
-- Shifts by less than 64 places
-- ════════════════════════════════════════════════════════════════════════

theorem lshift_eq {i : ℕ} (hi : i < 64) (v : UInt64) : lshift v i = some (shl v i) := by
  rw [lshift, if_pos (by omega), Int.toNat_natCast]

theorem rshift_eq {i : ℕ} (hi : i < 64) (v : UInt64) : rshift v i = some (shr v i) := by
  rw [rshift, if_pos (by omega), Int.toNat_natCast]

theorem toNat_shl_one {i : ℕ} (hi : i < 64) : (shl 1 i).toNat = 2 ^ i := by
  rw [toNat_shl, Nat.mod_eq_of_lt hi]
  change 1 <<< i % 2 ^ 64 = 2 ^ i
  rw [Nat.shiftLeft_eq, Nat.one_mul, Nat.mod_eq_of_lt (Nat.pow_lt_pow_right (by decide) hi)]

theorem and_two_pow_ne_zero_iff {v b : UInt64} {i : ℕ} (hi : i < 64) (hb : b.toNat = 2 ^ i) :
    v &&& b ≠ 0 ↔ bit v i = true := by
  rw [bit_eq, Nat.mod_eq_of_lt hi, ← not_iff_not, not_not, ← UInt64.toNat_inj, UInt64.toNat_and, hb,
    UInt64.toNat_zero, Nat.and_two_pow, mul_eq_zero, Bool.not_eq_true]
  cases v.toNat.testBit i <;> simp

theorem testBit_eq {i : ℕ} (hi : i < 64) (v : UInt64) : testBit v i = some (bit v i) := by
  have hbit : decide (v &&& shl 1 i ≠ 0) = bit v i := by
    rw [Bool.eq_iff_iff, decide_eq_true_iff]
    exact and_two_pow_ne_zero_iff hi (toNat_shl_one hi)
  rw [testBit, lshift_eq hi, Option.map_some, hbit]

theorem foldlM_eq_some {α β : Type*} {f : β → α → Option β} {g : β → α → β} {l : List α}
    (h : ∀ b, ∀ a ∈ l, f b a = some (g b a)) (b : β) : l.foldlM f b = some (l.foldl g b) := by
  induction l generalizing b with
  | nil => rfl
  | cons a l ih =>
    rw [List.foldlM_cons, h b a List.mem_cons_self]
    exact ih (fun b a ha => h b a (List.mem_cons_of_mem _ ha)) _

-- ════════════════════════════════════════════════════════════════════════
-- The highest bit
-- ════════════════════════════════════════════════════════════════════════

theorem bytemsb_eq : ∀ b < 256, bytemsb[b]? = some (Nat.size b) := by decide +kernel

theorem size_shiftRight {n k : ℕ} (h : n >>> k ≠ 0) : n.size = k + (n >>> k).size := by
  rw [Nat.shiftRight_eq_div_pow] at h ⊢
  have hpos : 0 < (n / 2 ^ k).size := Nat.size_pos.mpr (Nat.pos_of_ne_zero h)
  refine le_antisymm ?_ ?_
  · have hlt := Nat.lt_size_self (n / 2 ^ k)
    rw [Nat.size_le, pow_add, Nat.mul_comm]
    exact (Nat.div_lt_iff_lt_mul (by positivity)).mp hlt
  · have hle : 2 ^ ((n / 2 ^ k).size - 1) ≤ n / 2 ^ k := Nat.lt_size.mp (by omega)
    have hbit : k + ((n / 2 ^ k).size - 1) < n.size := by
      rw [Nat.lt_size, pow_add, Nat.mul_comm]
      exact (Nat.le_div_iff_mul_le (by positivity)).mp hle
    omega

/-- A mask of all bits from `k` on. -/
theorem and_mask {v w k : ℕ} (hv : v < 2 ^ (k + w)) : v &&& 2 ^ k * (2 ^ w - 1) = 2 ^ k * (v >>> k) := by
  refine Nat.eq_of_testBit_eq fun j => ?_
  rw [Nat.testBit_and, Nat.testBit_two_pow_mul, Nat.testBit_two_pow_mul, Nat.testBit_two_pow_sub_one,
    Nat.testBit_shiftRight]
  by_cases hj : k ≤ j
  · have hsum : k + (j - k) = j := by omega
    rw [hsum]
    by_cases hw : j - k < w
    · simp [hj, hw]
    · have hbit : v.testBit j = false :=
        Nat.testBit_lt_two_pow (hv.trans_le (Nat.pow_le_pow_right (by decide) (by omega)))
      simp [hbit]
  · simp [hj]

theorem and_mask_ne_zero_iff {v w k : ℕ} (hv : v < 2 ^ (k + w)) :
    v &&& 2 ^ k * (2 ^ w - 1) ≠ 0 ↔ v >>> k ≠ 0 := by
  rw [and_mask hv, ne_eq, mul_eq_zero, not_or]
  exact and_iff_right (by positivity)

/-- A byte of a word from bit `k` on is read in `bytemsb`. -/
theorem bytemsb_shiftRight {n k : ℕ} (h : n >>> k ≠ 0) (hn : n < 2 ^ (k + 8)) :
    bytemsb[n >>> k]?.map (fun b => k + b) = some n.size := by
  have hbyte : n >>> k < 256 := by
    rw [Nat.shiftRight_eq_div_pow, Nat.div_lt_iff_lt_mul (by positivity)]
    rwa [pow_add, Nat.mul_comm] at hn
  rw [bytemsb_eq _ hbyte, Option.map_some, size_shiftRight h]

theorem lt_of_shiftRight_eq_zero {n k : ℕ} (h : n >>> k = 0) : n < 2 ^ k := by
  rw [Nat.shiftRight_eq_div_pow] at h
  exact Nat.lt_of_div_eq_zero (by positivity) h

theorem fls32_eq (v : UInt32) : fls32 v = some v.toNat.size := by
  have hmask : ∀ m : UInt32, v &&& m ≠ 0 ↔ v.toNat &&& m.toNat ≠ 0 := by
    intro m
    rw [ne_eq, ← UInt32.toNat_inj, UInt32.toNat_and]
    rfl
  have h32 : v.toNat < 2 ^ 32 := v.toNat_lt
  have h16 : v &&& 0xffff0000 ≠ 0 ↔ v.toNat >>> 16 ≠ 0 :=
    (hmask _).trans (and_mask_ne_zero_iff (w := 16) h32)
  have h24 : v &&& 0xff000000 ≠ 0 ↔ v.toNat >>> 24 ≠ 0 :=
    (hmask _).trans (and_mask_ne_zero_iff (w := 8) h32)
  rw [fls32]
  by_cases hhigh : v.toNat >>> 16 ≠ 0
  · rw [if_pos (h16.mpr hhigh)]
    by_cases htop : v.toNat >>> 24 ≠ 0
    · rw [if_pos (h24.mpr htop)]
      exact bytemsb_shiftRight htop h32
    · rw [if_neg (mt h24.mp htop)]
      exact bytemsb_shiftRight hhigh (lt_of_shiftRight_eq_zero (not_not.mp htop))
  · have hlow : v.toNat < 2 ^ 16 := lt_of_shiftRight_eq_zero (not_not.mp hhigh)
    have h8 : v &&& 0x0000ff00 ≠ 0 ↔ v.toNat >>> 8 ≠ 0 :=
      (hmask _).trans (and_mask_ne_zero_iff (w := 8) hlow)
    rw [if_neg (mt h16.mp hhigh)]
    by_cases hsecond : v.toNat >>> 8 ≠ 0
    · rw [if_pos (h8.mpr hsecond)]
      exact bytemsb_shiftRight hsecond hlow
    · rw [if_neg (mt h8.mp hsecond)]
      exact bytemsb_eq _ (lt_of_shiftRight_eq_zero (not_not.mp hsecond))

/-- The table finds the highest bit. -/
theorem fls64_eq (v : UInt64) : fls64 v = some (Client.fls64 v) := by
  have hhigh : ((v >>> 32).toUInt32).toNat = v.toNat >>> 32 := by
    have hlt := v.toNat_lt
    rw [UInt64.toNat_toUInt32, UInt64.toNat_shiftRight, Nat.mod_eq_of_lt]
    · rfl
    · rw [Nat.shiftRight_eq_div_pow, Nat.div_lt_iff_lt_mul (by positivity)]
      exact hlt
  have hzero : (v >>> 32).toUInt32 ≠ 0 ↔ v.toNat >>> 32 ≠ 0 := by
    rw [ne_eq, ← UInt32.toNat_inj, hhigh]
    rfl
  rw [fls64, Client.fls64]
  by_cases h : v.toNat >>> 32 ≠ 0
  · rw [if_pos (hzero.mpr h), fls32_eq, hhigh, Option.map_some, size_shiftRight h]
  · have hlow : v.toNat < 2 ^ 32 := lt_of_shiftRight_eq_zero (not_not.mp h)
    rw [if_neg (mt hzero.mp h), fls32_eq, UInt64.toNat_toUInt32, Nat.mod_eq_of_lt hlow]

-- ════════════════════════════════════════════════════════════════════════
-- The functions have values
-- ════════════════════════════════════════════════════════════════════════

theorem multRound_eq (x y : UInt64) (p : UInt64 × UInt64) {i : ℕ} (hi : 1 ≤ i ∧ i < 64) :
    multRound x y p i =
      some (if bit x i then (p.1 ^^^ shr y (64 - i), p.2 ^^^ shl y i) else p) := by
  have hsub : (64 - i : ℤ) = (64 - i : ℕ) := by omega
  rw [multRound, testBit_eq hi.2, hsub, rshift_eq (by omega), lshift_eq hi.2]
  cases bit x i <;> rfl

theorem polymult_eq (x y : UInt64) : polymult x y = some (Client.polymult x y) := by
  have hlow : (if x &&& 1 ≠ 0 then y else 0) = if bit x 0 then y else 0 :=
    if_congr (and_two_pow_ne_zero_iff (i := 0) (by decide) rfl) rfl rfl
  rw [polymult, hlow]
  refine foldlM_eq_some (fun p i hi => multRound_eq x y p ?_) _
  rw [List.mem_range'_1] at hi
  omega

theorem highRound_eq (d : UInt64) (n : UInt64 × UInt64) {i : ℕ} (hi : i < 63) :
    highRound d n i = some (highStep d n i) := by
  have hsub : (63 - i : ℤ) = (63 - i : ℕ) := by omega
  have hadd : (i + 1 : ℤ) = (i + 1 : ℕ) := by omega
  rw [highRound, testBit_eq (by omega), hsub, hadd, rshift_eq (by omega), lshift_eq (by omega),
    highStep, ← addIf₂_eq]
  cases bit n.1 i <;> rfl

theorem lowRound_eq (d nl : UInt64) {i : ℕ} (hi : i < 64) :
    lowRound d nl i = some (lowStep d nl i) := by
  have hsub : (63 - i : ℤ) = (63 - i : ℕ) := by omega
  rw [lowRound, testBit_eq hi, hsub, rshift_eq (by omega), lowStep, addIf]
  cases bit nl i <;> rfl

/-- Without a bit in the high word the first loop does nothing. -/
theorem foldl_highStep_zero (d nl : UInt64) (l : List ℕ) :
    l.foldl (highStep d) (0, nl) = (0, nl) := by
  induction l with
  | nil => rfl
  | cons i l ih =>
    have hbit : bit 0 i = false := by
      rw [bit_eq]
      exact Nat.zero_testBit _
    have hstep : highStep d (0, nl) i = (0, nl) := by
      rw [highStep, hbit]
      rfl
    rw [List.foldl_cons, hstep, ih]

theorem fls64_bounds {d : UInt64} (hd : d ≠ 0) : 1 ≤ Client.fls64 d ∧ Client.fls64 d ≤ 64 := by
  have hne : d.toNat ≠ 0 := fun h => hd (UInt64.toNat_inj.mp h)
  exact ⟨Nat.size_pos.mpr (Nat.pos_of_ne_zero hne), Nat.size_le.mpr d.toNat_lt⟩

theorem polymod_eq (nh nl : UInt64) {d : UInt64} (hd : d ≠ 0) :
    polymod nh nl d = some (Client.polymod nh nl d) := by
  obtain ⟨hpos, hle⟩ := fls64_bounds hd
  obtain ⟨k, hk⟩ : ∃ k, Client.fls64 d = k + 1 := ⟨Client.fls64 d - 1, by omega⟩
  have hcast : ((k + 1 : ℕ) : ℤ) - 1 = k := by omega
  have hsub : (63 - k : ℤ) = (63 - k : ℕ) := by omega
  have hlow : ∀ nl e, (List.range' k (64 - k)).reverse.foldlM (lowRound e) nl =
      some ((List.range' k (64 - k)).reverse.foldl (lowStep e) nl) := by
    intro nl e
    refine foldlM_eq_some (fun nl i hi => lowRound_eq e nl ?_) nl
    rw [List.mem_reverse, List.mem_range'_1] at hi
    omega
  have hhigh : ∀ n e, (List.range 63).reverse.foldlM (highRound e) n =
      some ((List.range 63).reverse.foldl (highStep e) n) := by
    intro n e
    refine foldlM_eq_some (fun n i hi => highRound_eq e n ?_) n
    rwa [List.mem_reverse, List.mem_range] at hi
  have htop : ∀ e, (if nh &&& 0x8000000000000000 ≠ 0 then nh ^^^ e else nh) =
      addIf (bit nh 63) e nh := fun e =>
    if_congr (and_two_pow_ne_zero_iff (i := 63) (by decide) (by decide)) rfl rfl
  rw [Client.polymod_eq, hk, polymod, fls64_eq, hk]
  simp only [Option.bind_eq_bind, Option.bind_some, hcast, hsub, lshift_eq (show 63 - k < 64 by omega),
    Int.toNat_natCast, htop, hhigh, Nat.add_sub_cancel]
  by_cases hzero : nh = 0
  · subst hzero
    have hbit : bit 0 63 = false := by decide
    simp only [ne_eq, not_true_eq_false, if_false, hlow, hbit, addIf, foldl_highStep_zero,
      Bool.false_eq_true]
  · simp only [ne_eq, hzero, not_false_eq_true, if_true, hlow]

theorem polymmult_eq (x y : UInt64) {d : UInt64} (hd : d ≠ 0) :
    polymmult x y d = some (Client.polymmult x y d) := by
  rw [polymmult, polymult_eq]
  exact polymod_eq _ _ hd

-- ════════════════════════════════════════════════════════════════════════
-- Words as polynomials
-- ════════════════════════════════════════════════════════════════════════

noncomputable def value (v : UInt64) : (ZMod 2)[X] := poly v.toNat

/-- A high and a low word. -/
noncomputable def value₂ (p : UInt64 × UInt64) : (ZMod 2)[X] := value p.1 * X ^ 64 + value p.2

theorem value_xor (a b : UInt64) : value (a ^^^ b) = value a + value b := by
  rw [value, UInt64.toNat_xor, poly_xor]
  rfl

theorem value_addIf (c : Bool) (d x : UInt64) :
    value (addIf c d x) = value x + if c then value d else 0 := by
  cases c
  · exact (add_zero _).symm
  · exact value_xor x d

theorem value₂_addIf₂ (c : Bool) (d n : UInt64 × UInt64) :
    value₂ (addIf₂ c d n) = value₂ n + if c then value₂ d else 0 := by
  rw [addIf₂, value₂, value_addIf, value_addIf, value₂, value₂]
  cases c
  · simp
  · simp only [if_true]
    ring

theorem toNat_shr {i : ℕ} (hi : i < 64) (x : UInt64) : (shr x i).toNat = x.toNat / 2 ^ i := by
  rw [shr, UInt64.toNat_shiftRight, UInt64.toNat_ofNat', Nat.shiftRight_eq_div_pow]
  have hmod : i % 2 ^ 64 % 64 = i := by omega
  rw [hmod]

/-- The two words of a shift by `i` places. -/
theorem value₂_shift {i : ℕ} (hpos : 0 < i) (hi : i < 64) (y : UInt64) :
    value₂ (shr y (64 - i), shl y i) = X ^ i * value y := by
  have hpow : 2 ^ 64 = 2 ^ (64 - i) * 2 ^ i := by rw [← pow_add, Nat.sub_add_cancel hi.le]
  have hhigh : (shr y (64 - i)).toNat = y.toNat * 2 ^ i / 2 ^ 64 := by
    rw [toNat_shr (by omega), hpow, Nat.mul_div_mul_right _ _ (by positivity)]
  have hlow : (shl y i).toNat = y.toNat * 2 ^ i % 2 ^ 64 := by
    rw [toNat_shl, Nat.mod_eq_of_lt hi, Nat.shiftLeft_eq]
  have hsum : poly (2 ^ i * y.toNat) =
      X ^ 64 * poly (shr y (64 - i)).toNat + poly (shl y i).toNat := by
    rw [hhigh, hlow, ← poly_two_pow_mul_add _ (Nat.mod_lt _ (by positivity)), Nat.div_add_mod,
      Nat.mul_comm]
  rw [value, ← poly_two_pow_mul, hsum, value₂, mul_comm]
  rfl

/-- `polymult` over the lowest bits of `x`. -/
theorem value₂_foldl (x y : UInt64) {c : ℕ} (hc : c ≤ 63) :
    value₂ ((List.range' 1 c).foldl (fun (p : UInt64 × UInt64) i =>
        if bit x i then (p.1 ^^^ shr y (64 - i), p.2 ^^^ shl y i) else p)
      (0, if bit x 0 then y else 0)) = poly (x.toNat % 2 ^ (c + 1)) * value y := by
  induction c with
  | zero =>
    have hmod : x.toNat % 2 ^ (0 + 1) = (bit x 0).toNat := by
      rw [bit_eq, Nat.toNat_testBit, Nat.zero_mod, pow_zero, Nat.div_one, zero_add, pow_one]
    rw [hmod]
    cases bit x 0 <;> simp [value₂, value]
  | succ c ih =>
    have hbit : bit x (c + 1) = x.toNat.testBit (c + 1) := by rw [bit_eq, Nat.mod_eq_of_lt (by omega)]
    have hterm : (if bit x (c + 1) then X ^ (c + 1) * value y else 0) =
        X ^ (c + 1) * poly (bit x (c + 1)).toNat * value y := by
      cases bit x (c + 1) <;> simp
    have hmod : x.toNat % 2 ^ (c + 1 + 1) =
        2 ^ (c + 1) * (x.toNat / 2 ^ (c + 1) % 2) + x.toNat % 2 ^ (c + 1) := by
      rw [Nat.mod_pow_succ (k := c + 1), Nat.add_comm]
    have hstep := value₂_addIf₂ (bit x (1 + c)) (shr y (64 - (1 + c)), shl y (1 + c))
    rw [List.range'_concat, List.foldl_concat, one_mul, addIf₂_eq _ (_, _), hstep, ih (by omega),
      Nat.add_comm 1 c, value₂_shift (Nat.succ_pos c) (by omega), hterm, ← add_mul, hbit,
      Nat.toNat_testBit, hmod, poly_two_pow_mul_add _ (Nat.mod_lt _ (by positivity)), add_comm]

/-- `polymult` is the product. -/
theorem value₂_polymult (x y : UInt64) : value₂ (Client.polymult x y) = value x * value y := by
  have hfold := value₂_foldl x y (le_refl 63)
  rw [Nat.mod_eq_of_lt x.toNat_lt] at hfold
  exact hfold

-- ════════════════════════════════════════════════════════════════════════
-- Remainders
-- ════════════════════════════════════════════════════════════════════════

variable {d e : UInt64} {q : (ZMod 2)[X]}

/-- Adding a word with bit `i` as its highest, where `i` is set. -/
theorem addIf_lt {x : UInt64} {i : ℕ} (hi : i < 64) (hx : x.toNat < 2 ^ (i + 1))
    (he : e.toNat < 2 ^ (i + 1)) (hbit : e.toNat.testBit i = true) :
    (addIf (bit x i) e x).toNat < 2 ^ i := by
  rw [bit_eq, Nat.mod_eq_of_lt hi]
  cases hset : x.toNat.testBit i with
  | true =>
    rw [addIf, if_pos rfl, UInt64.toNat_xor]
    exact xor_lt_two_pow hx he (by rw [hset, hbit])
  | false =>
    have hzero := xor_lt_two_pow (b := 0) hx (by positivity) (by rw [hset, Nat.zero_testBit])
    rwa [Nat.xor_zero] at hzero

/-- The divisor with its highest bit moved down from bit 63 to bit `i`. -/
theorem shr_spec (he : e.toNat.testBit 63 = true) {i : ℕ} (hi : i < 64) :
    (shr e (63 - i)).toNat < 2 ^ (i + 1) ∧ (shr e (63 - i)).toNat.testBit i = true := by
  have hpow : 2 ^ 64 = 2 ^ (i + 1) * 2 ^ (63 - i) := by
    rw [← pow_add]
    congr 1
    omega
  have hlt := e.toNat_lt
  rw [toNat_shr (by omega)]
  refine ⟨?_, ?_⟩
  · rw [Nat.div_lt_iff_lt_mul (by positivity), ← hpow]
    exact hlt
  · have hsum : 63 - i + i = 63 := by omega
    rw [Nat.testBit_div_two_pow, Nat.add_comm, hsum]
    exact he

/-- A round of the first loop adds a multiple of the divisor. -/
theorem value₂_highStep_mod (hq : q ∣ value e) (n : UInt64 × UInt64) {i : ℕ} (hi : i < 63) :
    value₂ (highStep e n i) % q = value₂ n % q := by
  have hshift := value₂_shift (Nat.succ_pos i) (by omega) e
  have hsub : 64 - (i + 1) = 63 - i := by omega
  rw [hsub] at hshift
  rw [highStep, value₂_addIf₂]
  refine add_mod_of_dvd ?_
  split
  · rw [hshift]
    exact hq.mul_left _
  · exact dvd_zero q

/-- The first loop clears the high word and keeps the remainder. -/
theorem foldl_highStep (he : e.toNat.testBit 63 = true) (hq : q ∣ value e) {k : ℕ} (hk : k ≤ 63)
    {n : UInt64 × UInt64} (hn : n.1.toNat < 2 ^ k) :
    ((List.range k).reverse.foldl (highStep e) n).1 = 0 ∧
      value₂ ((List.range k).reverse.foldl (highStep e) n) % q = value₂ n % q := by
  induction k generalizing n with
  | zero => exact ⟨UInt64.toNat_inj.mp (Nat.lt_one_iff.mp hn), rfl⟩
  | succ k ih =>
    obtain ⟨hlt, hbit⟩ := shr_spec he (i := k) (by omega)
    have hnext : (highStep e n k).1.toNat < 2 ^ k := addIf_lt (by omega) hn hlt hbit
    obtain ⟨hhigh, hmod⟩ := ih (by omega) hnext
    rw [List.range_succ, List.reverse_append, List.reverse_singleton, List.singleton_append,
      List.foldl_cons]
    exact ⟨hhigh, hmod.trans (value₂_highStep_mod hq n (by omega))⟩

/-- The divisor is moved up until its highest bit is bit 63. -/
theorem toNat_normalized {k : ℕ} (hk : Client.fls64 d = k + 1) (hle : k < 64) :
    (shl d (63 - k)).toNat = 2 ^ (63 - k) * d.toNat := by
  have hlt : d.toNat < 2 ^ (k + 1) := Nat.size_le.mp (le_of_eq hk)
  have hpow : 2 ^ 64 = 2 ^ (63 - k) * 2 ^ (k + 1) := by
    rw [← pow_add]
    congr 1
    omega
  have hfits : 2 ^ (63 - k) * d.toNat < 2 ^ 64 := by
    rw [hpow]
    exact Nat.mul_lt_mul_of_pos_left hlt (by positivity)
  rw [toNat_shl, Nat.mod_eq_of_lt (show 63 - k < 64 by omega), Nat.shiftLeft_eq, Nat.mul_comm,
    Nat.mod_eq_of_lt hfits]

theorem testBit_normalized (hd : d ≠ 0) {k : ℕ} (hk : Client.fls64 d = k + 1) (hle : k < 64) :
    (shl d (63 - k)).toNat.testBit 63 = true := by
  have hne : d.toNat ≠ 0 := fun h => hd (UInt64.toNat_inj.mp h)
  have htop := testBit_size_sub_one hne
  have hsize : d.toNat.size - 1 = k := by
    rw [Client.fls64] at hk
    omega
  have hsub : 63 - (63 - k) = k := by omega
  rw [toNat_normalized hk hle, Nat.testBit_two_pow_mul, hsub, ← hsize, htop]
  simp

/-- A round of the second loop adds a multiple of the divisor. -/
theorem value_lowStep_mod {k : ℕ} (hk : Client.fls64 d = k + 1) (nl : UInt64) {i : ℕ} (hki : k ≤ i)
    (hi : i < 64) : value (lowStep (shl d (63 - k)) nl i) % value d = value nl % value d := by
  have hpow : 2 ^ (63 - k) = 2 ^ (63 - i) * 2 ^ (i - k) := by
    rw [← pow_add]
    congr 1
    omega
  have hshift : (shr (shl d (63 - k)) (63 - i)).toNat = 2 ^ (i - k) * d.toNat := by
    rw [toNat_shr (by omega), toNat_normalized hk (by omega), hpow, Nat.mul_assoc,
      Nat.mul_div_cancel_left _ (by positivity)]
  rw [lowStep, value_addIf]
  refine add_mod_of_dvd ?_
  split
  · rw [value, value, hshift, poly_two_pow_mul]
    exact dvd_mul_left _ _
  · exact dvd_zero _

/-- The second loop keeps the remainder and clears all bits from the divisor's highest on. -/
theorem foldl_lowStep (hd : d ≠ 0) {k c : ℕ} (hk : Client.fls64 d = k + 1) (hc : k + c ≤ 64)
    {nl : UInt64} (hnl : nl.toNat < 2 ^ (k + c)) :
    ((List.range' k c).reverse.foldl (lowStep (shl d (63 - k))) nl).toNat < 2 ^ k ∧
      value ((List.range' k c).reverse.foldl (lowStep (shl d (63 - k))) nl) % value d =
        value nl % value d := by
  induction c generalizing nl with
  | zero => exact ⟨hnl, rfl⟩
  | succ c ih =>
    obtain ⟨hlt, hbit⟩ := shr_spec (testBit_normalized hd hk (by omega)) (i := k + c) (by omega)
    have hnext : (lowStep (shl d (63 - k)) nl (k + c)).toNat < 2 ^ (k + c) :=
      addIf_lt (by omega) hnl hlt hbit
    obtain ⟨hlow, hmod⟩ := ih (by omega) hnext
    rw [List.range'_concat, one_mul, List.reverse_append, List.reverse_singleton,
      List.singleton_append, List.foldl_cons]
    exact ⟨hlow, hmod.trans (value_lowStep_mod hk nl (by omega) (by omega))⟩

/-- `polymod` is the remainder. -/
theorem value_polymod (nh nl : UInt64) (hd : d ≠ 0) :
    value (Client.polymod nh nl d) = value₂ (nh, nl) % value d ∧
      (value (Client.polymod nh nl d)).degree < (value d).degree := by
  obtain ⟨hpos, hle⟩ := fls64_bounds hd
  obtain ⟨k, hk⟩ : ∃ k, Client.fls64 d = k + 1 := ⟨Client.fls64 d - 1, by omega⟩
  have hne : d.toNat ≠ 0 := fun h => hd (UInt64.toNat_inj.mp h)
  have hsize : d.toNat.size - 1 = k := by
    rw [Client.fls64] at hk
    omega
  have htop := testBit_normalized hd hk (by omega)
  have hdvd : value d ∣ value (shl d (63 - k)) := by
    rw [value, value, toNat_normalized hk (by omega), poly_two_pow_mul]
    exact dvd_mul_left _ _
  have hstart : (addIf (bit nh 63) (shl d (63 - k)) nh).toNat < 2 ^ 63 :=
    addIf_lt (by omega) nh.toNat_lt (shl d (63 - k)).toNat_lt htop
  have hstart_mod : value₂ (addIf (bit nh 63) (shl d (63 - k)) nh, nl) % value d =
      value₂ (nh, nl) % value d := by
    rw [value₂, value_addIf, add_mul, add_right_comm]
    refine add_mod_of_dvd (Dvd.dvd.mul_right ?_ _)
    split
    · exact hdvd
    · exact dvd_zero _
  obtain ⟨hhigh, hhigh_mod⟩ := foldl_highStep htop hdvd (le_refl 63)
    (n := (addIf (bit nh 63) (shl d (63 - k)) nh, nl)) hstart
  obtain ⟨m, hm⟩ : ∃ m, (List.range 63).reverse.foldl (highStep (shl d (63 - k)))
    (addIf (bit nh 63) (shl d (63 - k)) nh, nl) = m := ⟨_, rfl⟩
  rw [hm] at hhigh hhigh_mod
  have hbits : m.2.toNat < 2 ^ (k + (64 - k)) := by
    rw [Nat.add_sub_cancel' (by omega)]
    exact m.2.toNat_lt
  have hlow := foldl_lowStep hd hk (by omega) hbits
  have hm₂ : value₂ m = value m.2 := by
    rw [value₂, hhigh]
    simp [value]
  rw [Client.polymod_eq, hk, Nat.add_sub_cancel, hm]
  refine ⟨?_, ?_⟩
  · rw [← hstart_mod, ← hhigh_mod, hm₂, ← hlow.2]
    exact (poly_mod_of_lt hne (by rw [hsize]; exact hlow.1)).symm
  · rw [value, value, degree_poly hne, hsize]
    exact degree_poly_lt hlow.1

/-- The functions have values, which are the product, the remainder and the product modulo a
polynomial. -/
theorem polynomial_arithmetic :
    (∀ x y, ∃ p, polymult x y = some p ∧ value₂ p = value x * value y) ∧
      (∀ nh nl d, d ≠ 0 → ∃ r, polymod nh nl d = some r ∧
        value r = (value nh * X ^ 64 + value nl) % value d ∧ (value r).degree < (value d).degree) ∧
      ∀ x y d, d ≠ 0 → ∃ r, polymmult x y d = some r ∧ value r = value x * value y % value d := by
  refine ⟨fun x y => ⟨_, polymult_eq x y, value₂_polymult x y⟩,
    fun nh nl d hd => ⟨_, polymod_eq nh nl hd, value_polymod nh nl hd⟩,
    fun x y d hd => ⟨_, polymmult_eq x y hd, ?_⟩⟩
  rw [Client.polymmult, (value_polymod _ _ hd).1]
  exact congrArg (· % value d) (value₂_polymult x y)

end TCBackup.Client.Polynomials
