import Mathlib.Data.Nat.Size
import TCBackup.Bnet
import TCBackup.Client.ExtremeBinning

/-!
# Numbers of entries (`client/src/extreme_binning.c`, `client/lib/htable.c`)

The number of fingerprints of a bin decides on the region it is written to, and the number of
chunks of a file on the table of a new bin. Both are computed in machine integers.

## Main definitions

- `nlen`, `raiseWhile` — the length of a bin and the loop over the levels
- `initLoop`, `bucketsOf`, `maskOf` — `htable::init`
- `FitsRegion`, `BinCreated` — the bin fits its region, and its table is built

## Main results

- `settles` — the loop over the levels ends
- `fits_region_iff` — exactly when a bin fits its region
- `bin_created_iff` — exactly when the table of a bin is built
-/

namespace TCBackup.Client

open ByteFile

/-- `nlen` for `n` fingerprints: the product is a 32-bit number, and the sum goes into an
`int32_t`. -/
def nlen (n : ℕ) : ℤ := int32 (24 + (n * 84 % 2 ^ 32 : ℕ))

/-- `level_to_max_amount` with its range check. -/
def maxAmount (level : ℕ) : ℤ := if maxBinLevel < level then -1 else levelToMaxAmount level

/-- The loop of `WriteBinToVolume` over the levels, for so many rounds; `none` while it goes on. -/
def raiseWhile (nlen : ℤ) : ℕ → ℕ → Option ℕ
  | 0, _ => none
  | fuel + 1, level =>
    if maxAmount level < nlen then raiseWhile nlen fuel (level + 1) else some level

/-- The loop ends with a level that exists, and the bytes of `n` fingerprints fit into its
region. -/
def FitsRegion (n level : ℕ) : Prop :=
  ∃ fuel level', raiseWhile (nlen n) fuel level = some level' ∧ level' < maxBinLevel ∧
    24 + 84 * n ≤ levelToMaxAmount level'

variable {n level level' fuel fuel' : ℕ} {x : ℤ}

theorem levelToMaxAmount_mono (h : level ≤ level') :
    levelToMaxAmount level ≤ levelToMaxAmount level' := by
  rw [levelToMaxAmount, levelToMaxAmount]
  exact Nat.mul_le_mul_right 512 (Nat.pow_le_pow_right (by omega) h)

theorem maxAmount_of_le (h : level ≤ maxBinLevel) : maxAmount level = levelToMaxAmount level :=
  if_neg (Nat.not_lt.mpr h)

/-- Two gibibytes are enough for every `int32_t`. -/
theorem amount_of_le (h : 22 ≤ level) : 2 ^ 31 ≤ levelToMaxAmount level :=
  le_trans (by decide) (levelToMaxAmount_mono h)

/-- More rounds do not change the end. -/
theorem raiseWhile_mono (h : raiseWhile x fuel level = some level') (hle : fuel ≤ fuel') :
    raiseWhile x fuel' level = some level' := by
  induction fuel generalizing level fuel' with
  | zero => cases h
  | succ fuel ih =>
    obtain ⟨k, rfl⟩ := Nat.exists_eq_add_of_le hle
    rw [Nat.add_right_comm, raiseWhile]
    rw [raiseWhile] at h
    split at h
    · next hlt =>
      rw [if_pos hlt]
      exact ih h (Nat.le_add_right fuel k)
    · next hge => rw [if_neg hge, h]

/-- The loop ends at the first level that is large enough, and that exists. -/
theorem settles (hx : x < 2 ^ 31) (hlevel : level < maxBinLevel) :
    ∃ fuel level', raiseWhile x fuel level = some level' ∧ level ≤ level' ∧ level' < maxBinLevel ∧
      x ≤ levelToMaxAmount level' ∧ (level' = level ∨ level' ≤ 22) := by
  induction hk : 22 - level generalizing level with
  | zero =>
    have hlarge : 2 ^ 31 ≤ levelToMaxAmount level := amount_of_le (by omega)
    refine ⟨1, level, ?_, le_rfl, hlevel, by omega, .inl rfl⟩
    rw [raiseWhile, maxAmount_of_le hlevel.le, if_neg (by omega)]
  | succ k ih =>
    by_cases hlt : maxAmount level < x
    · have hbound : maxBinLevel = 30 := rfl
      have hnext : level + 1 < maxBinLevel := by omega
      obtain ⟨fuel, level', hrun, hle, hmax, hx', hend⟩ := ih hnext (by omega)
      refine ⟨fuel + 1, level', ?_, by omega, hmax, hx', by omega⟩
      rw [raiseWhile, if_pos hlt, hrun]
    · refine ⟨1, level, ?_, le_rfl, hlevel, ?_, .inl rfl⟩
      · rw [raiseWhile, if_neg hlt]
      · rw [maxAmount_of_le hlevel.le] at hlt
        omega

theorem nlen_lt (n : ℕ) : nlen n < 2 ^ 31 := int32_lt _

theorem nlen_eq (h : 24 + 84 * n < 2 ^ 31) : nlen n = 24 + 84 * n := by
  have hmod : n * 84 % 2 ^ 32 = n * 84 := Nat.mod_eq_of_lt (by omega)
  rw [nlen, hmod, int32_eq (by omega) (by omega)]
  omega

/-- The bin fits unless its length is 2 GiB or more, which the level that it had does not hold. -/
theorem fits_region_iff (n level : ℕ) (hn : n < 2 ^ 32) (hlevel : level < maxBinLevel) :
    FitsRegion n level ↔ 24 + 84 * n < 2 ^ 31 ∨ 24 + 84 * n ≤ levelToMaxAmount level := by
  obtain ⟨fuel, level', hrun, hle, hmax, hx, hend⟩ := settles (nlen_lt n) hlevel
  constructor
  · rintro ⟨fuel₁, level₁, hrun₁, -, hfits⟩
    have hsame : level₁ = level' := by
      have hboth := raiseWhile_mono hrun₁ (Nat.le_add_right fuel₁ fuel)
      rw [raiseWhile_mono hrun (Nat.le_add_left fuel fuel₁)] at hboth
      exact (Option.some.inj hboth).symm
    rw [hsame] at hfits
    rcases hend with rfl | hsmall
    · exact .inr hfits
    · have hcap : levelToMaxAmount level' ≤ 2 ^ 31 := levelToMaxAmount_mono hsmall
      -- `24 + 84 * n` is never 2 GiB
      exact .inl (by omega)
  · rintro (hshort | hroom)
    · rw [nlen_eq hshort] at hx
      exact ⟨fuel, level', hrun, hmax, by omega⟩
    · exact ⟨fuel, level', hrun, hmax, hroom.trans (levelToMaxAmount_mono hle)⟩

/-- A bin of a hundred fingerprints outgrows the smallest region, and gets one of level five. -/
theorem fits_region_of_hundred : FitsRegion 100 0 ∧ raiseWhile (nlen 100) 6 0 = some 5 :=
  ⟨(fits_region_iff 100 0 (by decide) (by decide)).mpr (.inl (by decide)), by decide⟩

/-- The length of 25565282 fingerprints is negative, and 512 bytes are allocated for them. -/
theorem large_bin_overflows :
    ¬ ∀ n level : ℕ, n < 2 ^ 32 → level < maxBinLevel → FitsRegion n level := by
  intro h
  obtain ⟨fuel, level', hrun, -, hfits⟩ := h 25565282 0 (by decide) (by decide)
  have hlevel : level' = 0 := by
    have hone : raiseWhile (nlen 25565282) 1 0 = some 0 := by decide
    have hboth := raiseWhile_mono hrun (Nat.le_add_right fuel 1)
    rw [raiseWhile_mono hone (Nat.le_add_left 1 fuel)] at hboth
    exact (Option.some.inj hboth).symm
  rw [hlevel] at hfits
  exact absurd hfits (by decide)

/-- The loop of `htable::init`, for so many rounds: the power for `tsize`. The shift of a negative
number is arithmetic. -/
def initLoop : ℕ → ℕ → ℤ → Option ℕ
  | 0, _, _ => none
  | fuel + 1, pwr, tsize => if tsize = 0 then some pwr else initLoop fuel (pwr + 1) (tsize / 2)

/-- `1<<pwr` -/
def bucketsOf (pwr : ℕ) : BitVec 32 := 1#32 <<< pwr

/-- `~((~0)<<pwr)` -/
def maskOf (pwr : ℕ) : BitVec 32 := ~~~(~~~0#32 <<< pwr)

/-- `htable::init` ends, with a power of two for the buckets and the mask that belongs to it. -/
def TableBuilt (tsize : ℤ) : Prop :=
  ∃ fuel pwr k, initLoop fuel 0 (tsize / 4) = some pwr ∧ (bucketsOf pwr).toNat = 2 ^ k ∧
    (maskOf pwr).toNat = 2 ^ k - 1

/-- `LoadBin` gets over `NewBin`, which it calls when the bin is not in the cache. -/
def BinCreated (bin_cache : HTable 20 Bin) (rep_finger : Fingerprint) (chunknum : BitVec 32) :
    Prop :=
  bin_cache.lookup rep_finger = none → TableBuilt chunknum.toInt

variable {pwr pwr' : ℕ}

/-- A negative number is shifted to −1 and never to zero. -/
theorem initLoop_neg (hx : x < 0) : ∀ fuel pwr, initLoop fuel pwr x = none := by
  intro fuel
  induction fuel generalizing x with
  | zero => exact fun _ => rfl
  | succ fuel ih =>
    intro pwr
    rw [initLoop, if_neg (by omega)]
    exact ih (by omega) (pwr + 1)

/-- The power of a natural number is its length in bits. -/
theorem initLoop_nat (m : ℕ) : ∀ pwr, ∃ fuel, initLoop fuel pwr m = some (pwr + Nat.size m) := by
  induction m using Nat.strong_induction_on with
  | _ m ih =>
    intro pwr
    rcases Nat.eq_zero_or_pos m with rfl | hpos
    · exact ⟨1, by rw [Nat.size_zero]; rfl⟩
    · obtain ⟨fuel, hrun⟩ := ih (m / 2) (by omega) (pwr + 1)
      have hsize : Nat.size m = Nat.size (m / 2) + 1 := by
        have hbit := Nat.size_bit (b := m.bodd) (n := m.div2) (by rw [Nat.bit_bodd_div2]; omega)
        rwa [Nat.bit_bodd_div2, Nat.div2_val] at hbit
      refine ⟨fuel + 1, ?_⟩
      rw [initLoop, if_neg (by omega), show (m : ℤ) / 2 = ((m / 2 : ℕ) : ℤ) by omega, hrun, hsize,
        Nat.add_assoc, Nat.add_comm 1]

theorem bucketsOf_toNat (h : pwr < 32) : (bucketsOf pwr).toNat = 2 ^ pwr := by
  have hlt : 2 ^ pwr < 2 ^ 32 := Nat.pow_lt_pow_right (by omega) h
  rw [bucketsOf, BitVec.toNat_shiftLeft, Nat.shiftLeft_eq]
  simpa using hlt

theorem maskOf_toNat (h : pwr < 32) : (maskOf pwr).toNat = 2 ^ pwr - 1 := by
  interval_cases pwr <;> decide

/-- The table of a number that is not negative is the one that `htableInit` stands for. -/
theorem init_of_nat (m : ℕ) (hm : m < 2 ^ 31) :
    ∃ fuel, initLoop fuel 0 ((m : ℤ) / 4) = some (Nat.size (m / 4)) ∧
      (bucketsOf (Nat.size (m / 4))).toNat = 2 ^ Nat.size (m / 4) ∧
      (maskOf (Nat.size (m / 4))).toNat = 2 ^ Nat.size (m / 4) - 1 := by
  obtain ⟨fuel, hrun⟩ := initLoop_nat (m / 4) 0
  have hsize : Nat.size (m / 4) ≤ 29 := Nat.size_le.mpr (by omega)
  refine ⟨fuel, ?_, bucketsOf_toNat (by omega), maskOf_toNat (by omega)⟩
  rw [show (m : ℤ) / 4 = ((m / 4 : ℕ) : ℤ) by omega, hrun, Nat.zero_add]

theorem table_built_iff (chunknum : BitVec 32) :
    TableBuilt chunknum.toInt ↔ 0 ≤ chunknum.toInt := by
  constructor
  · rintro ⟨fuel, pwr, k, hrun, -⟩
    by_contra hneg
    rw [initLoop_neg (by omega)] at hrun
    cases hrun
  · intro hpos
    obtain ⟨m, hm⟩ := Int.eq_ofNat_of_zero_le hpos
    have hlt : chunknum.toInt < 2 ^ 31 := BitVec.toInt_lt
    obtain ⟨fuel, hrun, hbuckets, hmask⟩ := init_of_nat m (by omega)
    exact ⟨fuel, _, _, hm ▸ hrun, hbuckets, hmask⟩

/-- The table of a bin is built exactly when there is nothing to build, or the number of chunks is
one. -/
theorem bin_created_iff (bin_cache : HTable 20 Bin) (rep_finger : Fingerprint)
    (chunknum : BitVec 32) :
    BinCreated bin_cache rep_finger chunknum ↔
      (bin_cache.lookup rep_finger).isSome ∨ 0 ≤ chunknum.toInt := by
  rw [BinCreated, table_built_iff]
  cases bin_cache.lookup rep_finger with
  | none => simp
  | some bin => simp

/-- `capping_process` gives the marker of an empty stream to `LoadBin`, whose cache is empty: the
loop of `htable::init` goes on for ever. -/
theorem marker_hangs :
    ¬ ∀ (bin_cache : HTable 20 Bin) rep_finger chunknum,
      BinCreated bin_cache rep_finger chunknum := by
  intro h
  have hmarker := (bin_created_iff _ _ _).mp
    (h (htableInit 100) (List.Vector.replicate 20 0) (BitVec.ofInt 32 streamEnd))
  have hempty : (htableInit 100 : HTable 20 Bin).lookup (List.Vector.replicate 20 0) = none :=
    HTable.lookup_init 100 _
  rw [hempty] at hmarker
  exact absurd hmarker (by decide)

end TCBackup.Client
