import TCBackup.Global
import TCBackup.Lib.Numeral
import Mathlib.Data.List.TakeWhile

/-!
# The `UPDATEATTR` command

The client prints `UPDATEATTR chunknum=%d filepath=%s`, the server scans it with
the same format, where `%s` ends at white space.

## Main definitions

- `updateAttrMsg` — the message of a file
- `scanUpdateAttr` — the conversions that `sscanf` assigns
-/

namespace TCBackup

open ByteFile

/-- `UPDATEATTR` -/
def attrCommand : Bytes := [85, 80, 68, 65, 84, 69, 65, 84, 84, 82]

/-- `chunknum=` -/
def attrChunknum : Bytes := [99, 104, 117, 110, 107, 110, 117, 109, 61]

/-- `filepath=` -/
def attrFilepath : Bytes := [102, 105, 108, 101, 112, 97, 116, 104, 61]

/-- `sprintf(msg, update_attr, chunknum, file_path)` -/
def updateAttrMsg (chunknum : ℤ) (file_path : Bytes) : Bytes :=
  attrCommand ++ 32 :: (attrChunknum ++ (intNumeral chunknum ++ 32 :: (attrFilepath ++ file_path)))

def isSpace (c : UInt8) : Bool := c = 32 ∨ (9 ≤ c ∧ c ≤ 13)

def isDigit (c : UInt8) : Bool := 48 ≤ c ∧ c ≤ 57

def skipSpace (s : Bytes) : Bytes := s.dropWhile isSpace

/-- Match a literal part of the format. -/
def skipLiteral (lit s : Bytes) : Option Bytes :=
  if lit.isPrefixOf s then some (s.drop lit.length) else none

def scanDigits (s : Bytes) : Option (ℕ × Bytes) :=
  match s.takeWhile isDigit with
  | [] => none
  | ds => some (numeralValue 10 ds, s.dropWhile isDigit)

/-- `%d` -/
def scanInt (s : Bytes) : Option (ℤ × Bytes) :=
  match skipSpace s with
  | 45 :: s => (scanDigits s).map fun p => (-(p.1 : ℤ), p.2)
  | 43 :: s => (scanDigits s).map fun p => ((p.1 : ℤ), p.2)
  | s => (scanDigits s).map fun p => ((p.1 : ℤ), p.2)

/-- `%s` -/
def scanWord (s : Bytes) : Option Bytes :=
  match (skipSpace s).takeWhile (fun c => !isSpace c) with
  | [] => none
  | w => some w

/-- The part of the format up to `%d`. -/
def scanChunknum (s : Bytes) : Option (ℤ × Bytes) :=
  (skipLiteral attrCommand s).bind fun s =>
    (skipLiteral attrChunknum (skipSpace s)).bind scanInt

/-- `sscanf(msg, update_attr, &chunknum, filename)`: what it assigns. -/
def scanUpdateAttr (msg : Bytes) : Option ℤ × Option Bytes :=
  match scanChunknum msg with
  | none => (none, none)
  | some (chunknum, s) =>
    (some chunknum, (skipLiteral attrFilepath (skipSpace s)).bind scanWord)

theorem skipLiteral_append (lit s : Bytes) : skipLiteral lit (lit ++ s) = some s := by
  simp [skipLiteral, List.isPrefixOf_iff_prefix]

theorem skipSpace_cons {c : UInt8} (h : isSpace c = false) (s : Bytes) :
    skipSpace (c :: s) = c :: s := by
  simp [skipSpace, h]

theorem skipSpace_blank (s : Bytes) : skipSpace (32 :: s) = skipSpace s := by
  simp [skipSpace, isSpace]

theorem isDigit_digitByte {d : ℕ} (h : d < 10) : isDigit (digitByte d) = true := by
  interval_cases d <;> rfl

theorem isDigit_of_mem_numeral {b n : ℕ} {c : UInt8} (hb : 1 < b) (hb' : b ≤ 10)
    (hc : c ∈ numeral b n) : isDigit c = true := by
  rw [numeral] at hc
  split at hc
  · rw [List.mem_singleton.mp hc]
    rfl
  · obtain ⟨d, hd, rfl⟩ := List.mem_map.mp hc
    exact isDigit_digitByte ((Nat.digits_lt_base hb (List.mem_reverse.mp hd)).trans_le hb')

theorem isDigit_numeral (n : ℕ) : ∀ c ∈ numeral 10 n, isDigit c = true :=
  fun _ hc => isDigit_of_mem_numeral (by decide) (by decide) hc

theorem numeral_ne_nil (n : ℕ) : numeral 10 n ≠ [] := by
  rw [numeral]
  split
  · simp
  · next hn => simpa [Nat.digits_ne_nil_iff_ne_zero] using hn

theorem scanDigits_numeral_append (n : ℕ) {s : Bytes} (hs : ∀ c ∈ s.head?, isDigit c = false) :
    scanDigits (numeral 10 n ++ s) = some (n, s) := by
  have hdigits := isDigit_numeral n
  have htake : (numeral 10 n ++ s).takeWhile isDigit = numeral 10 n := by
    rw [List.takeWhile_append_of_pos hdigits]
    cases s with
    | nil => simp
    | cons c s => simp [hs c rfl]
  have hdrop : (numeral 10 n ++ s).dropWhile isDigit = s := by
    rw [List.dropWhile_append_of_pos hdigits]
    cases s with
    | nil => rfl
    | cons c s => simp [hs c rfl]
  rw [scanDigits, htake]
  split
  · next h => exact absurd h (numeral_ne_nil n)
  · rw [hdrop, numeralValue_numeral (by decide) (by decide)]

theorem scanDigits_numeral (n : ℕ) {b : UInt8} (hb : isDigit b = false) (s : Bytes) :
    scanDigits (numeral 10 n ++ b :: s) = some (n, b :: s) :=
  scanDigits_numeral_append n fun _ hc => Option.some.inj hc ▸ hb

/-- The first byte of a numeral is a digit. -/
theorem numeral_cons (n : ℕ) : ∃ c s, numeral 10 n = c :: s ∧ isDigit c = true := by
  obtain ⟨c, s, hcs⟩ := List.exists_cons_of_ne_nil (numeral_ne_nil n)
  exact ⟨c, s, hcs, isDigit_numeral n c (by simp [hcs])⟩

theorem isSpace_of_isDigit {c : UInt8} (h : isDigit c = true) : isSpace c = false := by
  simp only [isDigit, isSpace, Bool.decide_and, Bool.and_eq_true, decide_eq_true_eq,
    decide_eq_false_iff_not, UInt8.le_iff_toNat_le, ← UInt8.toNat_inj] at h ⊢
  simp at h ⊢
  omega

theorem scanInt_intNumeral_append (x : ℤ) {s : Bytes} (hs : ∀ c ∈ s.head?, isDigit c = false) :
    scanInt (intNumeral x ++ s) = some (x, s) := by
  have hvalue := scanDigits_numeral_append x.natAbs hs
  rw [intNumeral]
  split
  · next hx =>
    have hspace : skipSpace (45 :: numeral 10 x.natAbs ++ s) = 45 :: (numeral 10 x.natAbs ++ s) :=
      skipSpace_cons rfl _
    rw [scanInt, hspace]
    simp only [hvalue, Option.map_some]
    congr 2
    omega
  · next hx =>
    obtain ⟨c, cs, hcs, hc⟩ := numeral_cons x.natAbs
    have hspace : skipSpace (numeral 10 x.natAbs ++ s) = numeral 10 x.natAbs ++ s := by
      rw [hcs]
      exact skipSpace_cons (isSpace_of_isDigit hc) _
    rw [scanInt, hspace]
    split
    · next h =>
      rw [hcs] at h
      obtain ⟨rfl, -⟩ := List.cons.inj h
      exact absurd hc (by decide)
    · next h =>
      rw [hcs] at h
      obtain ⟨rfl, -⟩ := List.cons.inj h
      exact absurd hc (by decide)
    · rw [hvalue]
      simp only [Option.map_some]
      congr 2
      omega

theorem scanInt_intNumeral (x : ℤ) (s : Bytes) :
    scanInt (intNumeral x ++ 32 :: s) = some (x, 32 :: s) :=
  scanInt_intNumeral_append x fun _ hc => Option.some.inj hc ▸ rfl

/-- The number is scanned as printed. -/
theorem scanUpdateAttr_chunknum (chunknum : ℤ) (path : Bytes) :
    scanUpdateAttr (updateAttrMsg chunknum path) = (some chunknum, scanWord path) := by
  have hblank : ∀ s, skipSpace (32 :: (attrChunknum ++ s)) = attrChunknum ++ s := by
    intro s
    rw [skipSpace_blank]
    exact skipSpace_cons rfl _
  have hblank' : skipSpace (32 :: (attrFilepath ++ path)) = attrFilepath ++ path := by
    rw [skipSpace_blank]
    exact skipSpace_cons rfl _
  have hnum : scanChunknum (updateAttrMsg chunknum path) =
      some (chunknum, 32 :: (attrFilepath ++ path)) := by
    rw [scanChunknum, updateAttrMsg, skipLiteral_append, Option.bind_some, hblank,
      skipLiteral_append, Option.bind_some, scanInt_intNumeral]
  rw [scanUpdateAttr, hnum]
  simp only
  rw [hblank', skipLiteral_append, Option.bind_some]

/-- A path without white space is scanned as printed. -/
theorem scanWord_path {path : Bytes} (hne : path ≠ []) (h : ∀ c ∈ path, isSpace c = false) :
    scanWord path = some path := by
  obtain ⟨c, s, rfl⟩ := List.exists_cons_of_ne_nil hne
  have htake : (c :: s).takeWhile (fun c => !isSpace c) = c :: s := by
    rw [List.takeWhile_eq_self_iff]
    intro x hx
    simp [h x hx]
  rw [scanWord, skipSpace_cons (h c (by simp)), htake]

end TCBackup
