import Mathlib.Data.Vector.Basic
import TCBackup.Lib.ByteFile

/-!
# SHA-1

The Secure Hash Standard for messages of whole bytes.

## Main definitions

- `compress` — one block of 64 bytes
- `pad` — the message filled up to whole blocks
- `sha1` — the digest of a message

## Main results

- `absorb_append` — the blocks in front can be hashed first
-/

namespace Sha1

open ByteFile

/-- Five words: the state between blocks, and the registers inside one. -/
structure Words where
  a : UInt32
  b : UInt32
  c : UInt32
  d : UInt32
  e : UInt32
  deriving DecidableEq

def rotl (n x : UInt32) : UInt32 := x <<< n ||| x >>> (32 - n)

/-- The function of round `t`. -/
def f (t : ℕ) (b c d : UInt32) : UInt32 :=
  if t < 20 then (b &&& c) ^^^ (~~~b &&& d)
  else if t < 40 then b ^^^ c ^^^ d
  else if t < 60 then (b &&& c) ^^^ (b &&& d) ^^^ (c &&& d)
  else b ^^^ c ^^^ d

/-- The constant of round `t`. -/
def k (t : ℕ) : UInt32 :=
  if t < 20 then 0x5A827999
  else if t < 40 then 0x6ED9EBA1
  else if t < 60 then 0x8F1BBCDC
  else 0xCA62C1D6

/-- The `t`-th word of a block. -/
def wordAt (block : Bytes) (t : ℕ) : UInt32 :=
  (block.getD (4 * t) 0).toUInt32 <<< 24 ||| (block.getD (4 * t + 1) 0).toUInt32 <<< 16 |||
    (block.getD (4 * t + 2) 0).toUInt32 <<< 8 ||| (block.getD (4 * t + 3) 0).toUInt32

/-- The next word of the schedule. -/
def extend (w : List UInt32) (t : ℕ) : List UInt32 :=
  w ++ [rotl 1 (w.getD (t - 3) 0 ^^^ w.getD (t - 8) 0 ^^^ w.getD (t - 14) 0 ^^^ w.getD (t - 16) 0)]

def schedule (block : Bytes) : List UInt32 :=
  (List.range' 16 64).foldl extend ((List.range 16).map (wordAt block))

def round (w : List UInt32) (h : Words) (t : ℕ) : Words where
  a := rotl 5 h.a + f t h.b h.c h.d + h.e + w.getD t 0 + k t
  b := h.a
  c := rotl 30 h.b
  d := h.c
  e := h.d

def Words.add (h r : Words) : Words := ⟨h.a + r.a, h.b + r.b, h.c + r.c, h.d + r.d, h.e + r.e⟩

/-- One block of 64 bytes. -/
def compress (h : Words) (block : Bytes) : Words :=
  h.add ((List.range 80).foldl (round (schedule block)) h)

def initial : Words := ⟨0x67452301, 0xEFCDAB89, 0x98BADCFE, 0x10325476, 0xC3D2E1F0⟩

/-- The last `n` bytes of `x`, the highest first. -/
def beBytes (n x : ℕ) : Bytes := (List.range n).map fun i => UInt8.ofNat (x / 256 ^ (n - 1 - i))

/-- A one, as many zeros as are needed, and the length in bits. -/
def padding (length : ℕ) : Bytes :=
  0x80 :: (List.replicate ((119 - length % 64) % 64) 0 ++ beBytes 8 (8 * length))

/-- The message filled up to whole blocks. -/
def pad (msg : Bytes) : Bytes := msg ++ padding msg.length

/-- The first `n` blocks. -/
def blocks : ℕ → Bytes → List Bytes
  | 0, _ => []
  | n + 1, bs => bs.take 64 :: blocks n (bs.drop 64)

/-- The state after whole blocks. -/
def absorb (h : Words) (bs : Bytes) : Words := (blocks (bs.length / 64) bs).foldl compress h

def digest (h : Words) : Bytes :=
  beBytes 4 h.a.toNat ++ beBytes 4 h.b.toNat ++ beBytes 4 h.c.toNat ++ beBytes 4 h.d.toNat ++
    beBytes 4 h.e.toNat

@[simp] theorem length_beBytes (n x : ℕ) : (beBytes n x).length = n := by
  rw [beBytes, List.length_map, List.length_range]

@[simp] theorem length_digest (h : Words) : (digest h).length = 20 := by
  simp only [digest, List.length_append, length_beBytes]

/-- The digest of a message. -/
def sha1 (msg : Bytes) : List.Vector UInt8 20 :=
  ⟨digest (absorb initial (pad msg)), length_digest _⟩

example : (sha1 [97, 98, 99]).toList =
    [0xa9, 0x99, 0x3e, 0x36, 0x47, 0x06, 0x81, 0x6a, 0xba, 0x3e, 0x25, 0x71, 0x78, 0x50, 0xc2, 0x6c,
      0x9c, 0xd0, 0xd8, 0x9d] := by decide +kernel

theorem absorb_nil (h : Words) : absorb h [] = h := rfl

/-- The first block is hashed first. -/
theorem absorb_step (h : Words) {bs : Bytes} (hbs : 64 ≤ bs.length) :
    absorb h bs = absorb (compress h (bs.take 64)) (bs.drop 64) := by
  have hnum : bs.length / 64 = (bs.drop 64).length / 64 + 1 := by
    rw [List.length_drop]
    omega
  rw [absorb, hnum, blocks, List.foldl_cons, absorb]

/-- Whole blocks can be hashed first. -/
theorem absorb_append (h : Words) {bs : Bytes} {n : ℕ} (hbs : bs.length = 64 * n) (cs : Bytes) :
    absorb h (bs ++ cs) = absorb (absorb h bs) cs := by
  induction n generalizing h bs with
  | zero =>
    have hnil : bs = [] := List.length_eq_zero_iff.mp hbs
    rw [hnil, absorb_nil, List.nil_append]
  | succ n ih =>
    have hle : 64 ≤ bs.length := by omega
    have hdrop : (bs.drop 64).length = 64 * n := by
      rw [List.length_drop]
      omega
    rw [absorb_step h hle, ← ih _ hdrop, absorb_step h (by rw [List.length_append]; omega),
      List.take_append_of_le_length hle, List.drop_append_of_le_length hle]

theorem absorb_block (h : Words) {block : Bytes} (hblock : block.length = 64) :
    absorb h block = compress h block := by
  rw [absorb_step h hblock.ge, List.take_of_length_le hblock.le,
    List.drop_of_length_le hblock.le, absorb_nil]

end Sha1
