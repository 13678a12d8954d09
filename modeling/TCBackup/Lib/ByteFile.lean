import Mathlib.Data.List.Basic
import Mathlib.Data.Vector.Basic
import Mathlib.Data.Nat.Digits.Lemmas
import Mathlib.Tactic.Ring

/-!
# Byte files

Files as byte lists with positioned reads and writes, and the little-endian
integers stored in them. A write past the end fills the gap with zeros.

## Main definitions

- `readAt`, `writeAt` — `lseek` followed by one `read` or one `write`
- `leBytes`, `leNat` — unsigned little-endian encoding in a fixed width
- `intBytes`, `intOf` — two's complement integers over it
- `readRecords` — consecutive records of one size
- `fixed` — a byte string as a field of fixed width
-/

namespace ByteFile

abbrev Bytes := List UInt8

/-- The bytes delivered by one read of `n` bytes at `off`; short at the end. -/
def readAt (f : Bytes) (off n : ℕ) : Bytes := (f.drop off).take n

/-- One complete write of `d` at `off`. -/
def writeAt (f : Bytes) (off : ℕ) (d : Bytes) : Bytes :=
  f.take off ++ List.replicate (off - f.length) 0 ++ d ++ f.drop (off + d.length)

theorem length_readAt (f : Bytes) (off n : ℕ) :
    (readAt f off n).length = min n (f.length - off) := by
  simp [readAt]

theorem length_readAt_of_le {f : Bytes} {off n : ℕ} (h : off + n ≤ f.length) :
    (readAt f off n).length = n := by
  rw [length_readAt]
  omega

theorem length_writeAt (f : Bytes) (off : ℕ) (d : Bytes) :
    (writeAt f off d).length = max f.length (off + d.length) := by
  simp only [writeAt, List.length_append, List.length_take, List.length_replicate,
    List.length_drop]
  omega

theorem getElem?_readAt (f : Bytes) (off n i : ℕ) :
    (readAt f off n)[i]? = if i < n then f[off + i]? else none := by
  simp [readAt, List.getElem?_take]

/-- Below the written range a file keeps its bytes. -/
theorem getElem?_writeAt_lt {f : Bytes} {off i : ℕ} (d : Bytes) (hi : i < off)
    (hf : i < f.length) : (writeAt f off d)[i]? = f[i]? := by
  have hlen : i < (f.take off).length := by
    rw [List.length_take]
    omega
  rw [writeAt, List.append_assoc, List.append_assoc, List.getElem?_append_left hlen,
    List.getElem?_take_of_lt hi]

/-- Above the written range a file keeps its bytes. -/
theorem getElem?_writeAt_ge {f : Bytes} {off i : ℕ} (d : Bytes) (hi : off + d.length ≤ i) :
    (writeAt f off d)[i]? = f[i]? := by
  have hpre : (f.take off ++ List.replicate (off - f.length) (0 : UInt8) ++ d).length =
      off + d.length := by
    simp only [List.length_append, List.length_take, List.length_replicate]
    omega
  rw [writeAt, List.getElem?_append_right (by omega), hpre, List.getElem?_drop]
  congr 1
  omega

/-- What was written is read back. -/
theorem readAt_writeAt_self (f : Bytes) (off : ℕ) (d : Bytes) :
    readAt (writeAt f off d) off d.length = d := by
  have hpre : (f.take off ++ List.replicate (off - f.length) (0 : UInt8)).length = off := by
    simp only [List.length_append, List.length_take, List.length_replicate]
    omega
  rw [readAt, writeAt, List.append_assoc]
  rw [List.drop_append_of_le_length (by omega), List.drop_of_length_le (by omega)]
  simp

/-- A read that does not meet the written range is unaffected. -/
theorem readAt_writeAt_of_disjoint {f d : Bytes} {off pos n : ℕ}
    (hd : pos + n ≤ off ∨ off + d.length ≤ pos) (hf : pos + n ≤ f.length) :
    readAt (writeAt f off d) pos n = readAt f pos n := by
  apply List.ext_getElem?
  intro i
  rw [getElem?_readAt, getElem?_readAt]
  by_cases hi : i < n
  · rw [if_pos hi, if_pos hi]
    rcases hd with hd | hd
    · exact getElem?_writeAt_lt d (by omega) (by omega)
    · exact getElem?_writeAt_ge d (by omega)
  · rw [if_neg hi, if_neg hi]

/-- A read splits at any point of its range. -/
theorem readAt_add (f : Bytes) (off m n : ℕ) :
    readAt f off (m + n) = readAt f off m ++ readAt f (off + m) n := by
  rw [readAt, readAt, readAt, List.take_add, List.drop_drop]

/-- Reading inside a range that was read before. -/
theorem readAt_readAt {f : Bytes} {off n pos m : ℕ} (h : pos + m ≤ n) :
    readAt (readAt f off n) pos m = readAt f (off + pos) m := by
  apply List.ext_getElem?
  intro i
  simp only [getElem?_readAt]
  by_cases hi : i < m
  · rw [if_pos hi, if_pos hi, if_pos (by omega), Nat.add_assoc]
  · rw [if_neg hi, if_neg hi]

theorem readAt_append_left {a b : Bytes} {off n : ℕ} (h : off + n ≤ a.length) :
    readAt (a ++ b) off n = readAt a off n := by
  apply List.ext_getElem?
  intro i
  simp only [getElem?_readAt]
  by_cases hi : i < n
  · rw [if_pos hi, if_pos hi, List.getElem?_append_left (by omega)]
  · rw [if_neg hi, if_neg hi]

theorem readAt_append_right {a b : Bytes} {off n : ℕ} (h : a.length ≤ off) :
    readAt (a ++ b) off n = readAt b (off - a.length) n := by
  apply List.ext_getElem?
  intro i
  simp only [getElem?_readAt]
  by_cases hi : i < n
  · rw [if_pos hi, if_pos hi, List.getElem?_append_right (by omega)]
    congr 1
    omega
  · rw [if_neg hi, if_neg hi]

@[simp] theorem readAt_zero_length (f : Bytes) : readAt f 0 f.length = f := by
  simp [readAt]

/-- The first field of a concatenation. -/
theorem readAt_front {a b : Bytes} {n : ℕ} (h : a.length = n) : readAt (a ++ b) 0 n = a := by
  subst h
  simp [readAt]

/-- A read behind the first field. -/
theorem readAt_skip {a b : Bytes} {off k n : ℕ} (h : off = a.length + k) :
    readAt (a ++ b) off n = readAt b k n := by
  rw [readAt_append_right (by omega), h, Nat.add_sub_cancel_left]

theorem readAt_vector {n : ℕ} (v : List.Vector UInt8 n) : readAt v.toList 0 n = v.toList := by
  simpa using readAt_front (b := []) v.toList_length

/-- A read within the written range. -/
theorem readAt_writeAt_inside {f d : Bytes} {off pos n : ℕ} (h : pos + n ≤ d.length) :
    readAt (writeAt f off d) (off + pos) n = readAt d pos n := by
  rw [← readAt_readAt h, readAt_writeAt_self]

/-- The first write into an empty file. -/
@[simp] theorem writeAt_nil (d : Bytes) : writeAt [] 0 d = d := by
  simp [writeAt]

/-- Two writes that follow each other are one write. -/
theorem writeAt_writeAt (f : Bytes) (off : ℕ) (a b : Bytes) :
    writeAt (writeAt f off a) (off + a.length) b = writeAt f off (a ++ b) := by
  have hpre : (f.take off ++ List.replicate (off - f.length) (0 : UInt8) ++ a).length =
      off + a.length := by
    simp only [List.length_append, List.length_take, List.length_replicate]
    omega
  have htake : (writeAt f off a).take (off + a.length) =
      f.take off ++ List.replicate (off - f.length) 0 ++ a := by
    rw [writeAt, ← hpre, List.take_left']
    rfl
  have hdrop : (writeAt f off a).drop (off + a.length + b.length) =
      f.drop (off + a.length + b.length) := by
    rw [writeAt, ← List.drop_drop, List.drop_left' hpre, List.drop_drop]
  have hgap : off + a.length - (writeAt f off a).length = 0 := by
    rw [length_writeAt]
    omega
  conv_lhs => rw [writeAt]
  rw [htake, hdrop, hgap, writeAt]
  simp [Nat.add_assoc]

/-- `n` bytes, lowest first, of the value modulo `256 ^ n`. -/
def leBytes : ℕ → ℕ → Bytes
  | 0, _ => []
  | n + 1, x => UInt8.ofNat (x % 256) :: leBytes n (x / 256)

def leNat : Bytes → ℕ
  | [] => 0
  | b :: bs => b.toNat + 256 * leNat bs

@[simp] theorem length_leBytes (n x : ℕ) : (leBytes n x).length = n := by
  induction n generalizing x with
  | zero => rfl
  | succ n ih => simp [leBytes, ih]

theorem leNat_leBytes (n x : ℕ) : leNat (leBytes n x) = x % 256 ^ n := by
  induction n generalizing x with
  | zero => simp [leBytes, leNat, Nat.mod_one]
  | succ n ih =>
    have hb : (UInt8.ofNat (x % 256)).toNat = x % 256 := by
      rw [UInt8.toNat_ofNat']
      exact Nat.mod_eq_of_lt (Nat.mod_lt _ (by decide))
    rw [leBytes, leNat, ih, hb, pow_succ', Nat.mod_mul]

theorem leNat_leBytes_of_lt {n x : ℕ} (h : x < 256 ^ n) : leNat (leBytes n x) = x := by
  rw [leNat_leBytes, Nat.mod_eq_of_lt h]

/-- A signed integer of `n` bytes in two's complement. -/
def intBytes (n : ℕ) (x : ℤ) : Bytes := leBytes n (x % (256 ^ n : ℕ)).toNat

/-- The signed value of a little-endian byte string. -/
def intOf (bs : Bytes) : ℤ := Int.bmod (leNat bs) (256 ^ bs.length)

@[simp] theorem length_intBytes (n : ℕ) (x : ℤ) : (intBytes n x).length = n :=
  length_leBytes _ _

theorem intOf_intBytes (n : ℕ) (x : ℤ) :
    intOf (intBytes n x) = Int.bmod x (256 ^ n) := by
  have hpos : (0 : ℤ) < ((256 ^ n : ℕ) : ℤ) := by positivity
  have hlt : (x % (256 ^ n : ℕ)).toNat < 256 ^ n := by
    have := Int.emod_lt_of_pos x hpos
    have := Int.emod_nonneg x hpos.ne'
    omega
  rw [intOf, length_intBytes, intBytes, leNat_leBytes_of_lt hlt,
    Int.toNat_of_nonneg (Int.emod_nonneg x hpos.ne')]
  exact Int.emod_bmod ..

/-- Nonnegative values below half the range survive. -/
theorem intOf_intBytes_natCast {n : ℕ} {x : ℕ} (h : 2 * x < 256 ^ n) :
    intOf (intBytes n x) = x := by
  rw [intOf_intBytes]
  apply Int.bmod_eq_of_le <;> omega

theorem intBytes_natCast {n x : ℕ} (h : x < 256 ^ n) : intBytes n x = leBytes n x := by
  have hx : ((x : ℤ) % (256 ^ n : ℕ)).toNat = x := by
    rw [← Int.natCast_emod, Int.toNat_natCast, Nat.mod_eq_of_lt h]
  rw [intBytes, hx]

/-- The low bytes of an integer. -/
theorem readAt_leBytes (m n x : ℕ) : readAt (leBytes (m + n) x) 0 m = leBytes m x := by
  induction m generalizing x with
  | zero => simp [readAt, leBytes]
  | succ m ih =>
    have hih := ih (x / 256)
    simp only [readAt, List.drop_zero] at hih ⊢
    rw [Nat.add_right_comm, leBytes, leBytes, List.take_succ_cons, hih]

/-- A signed value is below half the range. -/
theorem intOf_lt {bs : Bytes} (h : bs ≠ []) : 2 * (intOf bs).toNat < 256 ^ bs.length := by
  have hlen : bs.length ≠ 0 := by simpa using h
  obtain ⟨n, hn⟩ := Nat.exists_eq_succ_of_ne_zero hlen
  have heven : 256 ^ bs.length = 2 * (128 * 256 ^ n) := by rw [hn, pow_succ]; ring
  have hpos : 0 < 256 ^ n := by positivity
  have := Int.bmod_lt (x := (leNat bs : ℤ)) (m := 256 ^ bs.length) (by positivity)
  rw [intOf, heven] at *
  omega

/-- A field of `n` bytes, filled up with zeros. -/
def fixed (n : ℕ) (bs : Bytes) : List.Vector UInt8 n :=
  ⟨bs.take n ++ List.replicate (n - bs.length) 0, by
    simp only [List.length_append, List.length_take, List.length_replicate]
    omega⟩

@[simp] theorem fixed_toList {n : ℕ} (v : List.Vector UInt8 n) : fixed n v.toList = v := by
  apply List.Vector.toList_injective
  have hlen := v.toList_length
  simp [fixed, hlen]

theorem toList_fixed {n : ℕ} {bs : Bytes} (h : bs.length = n) : (fixed n bs).toList = bs := by
  subst h
  simp [fixed, List.Vector.toList]

theorem fixed_leBytes_inj {n i j : ℕ} (hi : i < 256 ^ n) (hj : j < 256 ^ n)
    (h : fixed n (leBytes n i) = fixed n (leBytes n j)) : i = j := by
  have hlist := congrArg List.Vector.toList h
  rw [toList_fixed (length_leBytes _ _), toList_fixed (length_leBytes _ _)] at hlist
  have hnat := congrArg leNat hlist
  rwa [leNat_leBytes_of_lt hi, leNat_leBytes_of_lt hj] at hnat

variable {α : Type*} {dec : Bytes → α} {enc : α → Bytes} {size : ℕ}

/-- `n` consecutive records of `size` bytes from position `pos`. -/
def readRecords (dec : Bytes → α) (size : ℕ) (f : Bytes) : ℕ → ℕ → List α
  | 0, _ => []
  | n + 1, pos => dec (readAt f pos size) :: readRecords dec size f n (pos + size)

@[simp] theorem length_readRecords (dec : Bytes → α) (size : ℕ) (f : Bytes) (n pos : ℕ) :
    (readRecords dec size f n pos).length = n := by
  induction n generalizing pos with
  | zero => rfl
  | succ n ih => simp [readRecords, ih]

theorem readRecords_congr {f g : Bytes} {n pos : ℕ}
    (h : ∀ k < n, readAt f (pos + size * k) size = readAt g (pos + size * k) size) :
    readRecords dec size f n pos = readRecords dec size g n pos := by
  induction n generalizing pos with
  | zero => rfl
  | succ n ih =>
    have hhead : readAt f pos size = readAt g pos size := by simpa using h 0 (by omega)
    rw [readRecords, readRecords, hhead]
    congr 1
    apply ih
    intro k hk
    have := h (k + 1) (by omega)
    rwa [Nat.mul_succ, Nat.add_comm (size * k), ← Nat.add_assoc] at this

theorem length_flatMap_enc (henc : ∀ x, (enc x).length = size) (xs : List α) :
    (xs.flatMap enc).length = size * xs.length := by
  induction xs with
  | nil => simp
  | cons x xs ih => simp [ih, henc x, Nat.mul_add, Nat.add_comm]

/-- Records written one after the other are read back in order. -/
theorem readRecords_of_readAt' {xs : List α} (henc : ∀ x, (enc x).length = size)
    (hdec : ∀ x ∈ xs, dec (enc x) = x) {f : Bytes} {pos : ℕ}
    (h : readAt f pos (size * xs.length) = xs.flatMap enc) :
    readRecords dec size f xs.length pos = xs := by
  induction xs generalizing pos with
  | nil => rfl
  | cons x xs ih =>
    have hlen : size * (x :: xs).length = size + size * xs.length := by
      rw [List.length_cons, Nat.mul_succ, Nat.add_comm]
    rw [hlen, readAt_add, List.flatMap_cons] at h
    have hfull := congrArg List.length h
    simp only [List.length_append, length_readAt, henc x, length_flatMap_enc henc] at hfull
    have hhead : (readAt f pos size).length = (enc x).length := by
      rw [length_readAt, henc x]
      omega
    obtain ⟨h1, h2⟩ := List.append_inj h hhead
    rw [List.length_cons, readRecords, h1, hdec x (by simp),
      ih (fun y hy => hdec y (by simp [hy])) h2]

theorem readRecords_of_readAt {xs : List α} (henc : ∀ x, (enc x).length = size)
    (hdec : ∀ x, dec (enc x) = x) {f : Bytes} {pos : ℕ}
    (h : readAt f pos (size * xs.length) = xs.flatMap enc) :
    readRecords dec size f xs.length pos = xs :=
  readRecords_of_readAt' henc (fun x _ => hdec x) h

end ByteFile
