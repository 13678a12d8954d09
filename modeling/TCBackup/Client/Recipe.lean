import TCBackup.Bnet

/-!
# Files and their chunks on the client (`client/src/recipe.c`)
-/

namespace TCBackup.Client

open ByteFile

/-- `NEW_CHUNK` or `DEDUP_CHUNK`. -/
inductive ChunkStatus
  | newChunk
  | dedupChunk
  deriving DecidableEq, Repr

/-- One chunk of a file; `mutex` tells whether its lock is held. -/
structure FingerChunk where
  chunk_hash : Fingerprint
  is_new : ChunkStatus
  chunklen : ℕ
  offset : ℕ
  chunkaddress : Chunkaddress
  mutex : Bool
  deriving DecidableEq

/-- A file and its chunks, which are values of `χ` here: the chunks themselves,
or references to chunks that other buffers share. -/
structure FileInfo (χ : Type*) where
  file_hash : Fingerprint
  rep_finger : Fingerprint
  file_path : Bytes
  is_new : FileStatus
  file_size : ℕ
  chunks : List χ

variable {χ : Type*}

/-- The address field of a chunk that has not been stored. -/
def noAddress : Chunkaddress := fixed 64 []

def zeroFinger : Fingerprint := fixed 20 []

def fingerchunkNew : FingerChunk := ⟨zeroFinger, .newChunk, 0, 0, noAddress, false⟩

def fileNew : FileInfo χ := ⟨zeroFinger, zeroFinger, [], .unset, 0, []⟩

def fileAppendFingerchunk (fileinfo : FileInfo χ) (fc : χ) : FileInfo χ :=
  { fileinfo with chunks := fileinfo.chunks ++ [fc] }

/-- `chunknum` counts the appended chunks, in an `int32_t`. -/
def FileInfo.chunknum (fileinfo : FileInfo χ) : ℤ := int32 fileinfo.chunks.length

/-- The chunks that a loop comes to which counts them in an `int` from `i` on, while `go` holds. -/
def countUp (go : ℤ → Bool) : ℤ → List χ → List χ
  | _, [] => []
  | i, c :: cs => if go i then c :: countUp go (int32 (i + 1)) cs else []

/-- The chunks in a loop while the count is less than `chunknum`. -/
def FileInfo.counted (fileinfo : FileInfo χ) : List χ :=
  countUp (fun i => i < fileinfo.chunknum) 0 fileinfo.chunks

/-- The chunks in a loop until the count is `chunknum`. -/
def FileInfo.reached (fileinfo : FileInfo χ) : List χ :=
  countUp (fun i => i ≠ fileinfo.chunknum) 0 fileinfo.chunks

variable {fileinfo : FileInfo χ} {go : ℤ → Bool} {i : ℤ} {l : List χ}

theorem FileInfo.chunknum_eq (h : fileinfo.chunks.length < 2 ^ 31) :
    fileinfo.chunknum = fileinfo.chunks.length := int32_eq (by omega) (by omega)

theorem int32_add_one (i : ℤ) : int32 (int32 i + 1) = int32 (i + 1) := Int.bmod_add_bmod

theorem countUp_prefix (go : ℤ → Bool) (i : ℤ) (l : List χ) : countUp go i l <+: l := by
  induction l generalizing i with
  | nil => exact List.prefix_refl []
  | cons c cs ih =>
    rw [countUp]
    split
    · exact List.cons_prefix_cons.mpr ⟨rfl, ih _⟩
    · exact List.nil_prefix

/-- The loop goes through the list if `go` holds of all numbers it counts. -/
theorem countUp_eq (h : ∀ j < l.length, go (int32 (i + j))) : countUp go (int32 i) l = l := by
  induction l generalizing i with
  | nil => rfl
  | cons c cs ih =>
    have hfirst := h 0 (Nat.succ_pos _)
    rw [Nat.cast_zero, add_zero] at hfirst
    rw [countUp, if_pos hfirst, int32_add_one, ih]
    intro j hj
    have hnext := h (j + 1) (Nat.succ_lt_succ hj)
    rwa [Nat.cast_succ, ← add_assoc, add_right_comm] at hnext

theorem FileInfo.counted_prefix (fileinfo : FileInfo χ) : fileinfo.counted <+: fileinfo.chunks :=
  countUp_prefix _ _ _

theorem FileInfo.reached_prefix (fileinfo : FileInfo χ) : fileinfo.reached <+: fileinfo.chunks :=
  countUp_prefix _ _ _

theorem FileInfo.counted_nil (h : fileinfo.chunknum ≤ 0) : fileinfo.counted = [] := by
  rw [counted]
  cases fileinfo.chunks with
  | nil => rfl
  | cons c cs => rw [countUp, if_neg (by simpa using h)]

theorem FileInfo.counted_eq (h : fileinfo.chunks.length < 2 ^ 31) :
    fileinfo.counted = fileinfo.chunks := by
  refine countUp_eq (i := 0) fun j hj => decide_eq_true ?_
  rw [chunknum_eq h, zero_add, int32_eq (by omega) (by omega)]
  exact Int.ofNat_lt.mpr hj

theorem FileInfo.reached_eq (h : fileinfo.chunks.length < 2 ^ 32) :
    fileinfo.reached = fileinfo.chunks := by
  refine countUp_eq (i := 0) fun j hj => decide_eq_true fun heq => ?_
  have hmod : ∀ x : ℤ, int32 x % 2 ^ 32 = x % 2 ^ 32 := fun x => Int.bmod_emod
  have hsame := congrArg (· % 2 ^ 32) heq
  rw [chunknum, hmod, hmod] at hsame
  omega

/-- A count below a number that fits an `int` comes to no more chunks than that. -/
theorem length_countUp_lt {n : ℤ} (hn : n < 2 ^ 31) (hi : 0 ≤ i) (l : List χ) :
    ((countUp (fun i => i < n) i l).length : ℤ) ≤ max 0 (n - i) := by
  induction l generalizing i with
  | nil => simp [countUp]
  | cons c cs ih =>
    rw [countUp]
    by_cases hlt : i < n
    · rw [if_pos (decide_eq_true hlt), int32_eq (by omega) (by omega), List.length_cons, Nat.cast_succ]
      have hrest := ih (i := i + 1) (by omega)
      omega
    · rw [if_neg (by simpa using hlt)]
      simp

/-- Of a file with more chunks than an `int32_t` counts, some are left out. -/
theorem FileInfo.length_counted_lt (h : 2 ^ 31 ≤ fileinfo.chunks.length) :
    fileinfo.counted.length < fileinfo.chunks.length := by
  have hlt := int32_lt fileinfo.chunks.length
  have hle := length_countUp_lt hlt (le_refl 0) fileinfo.chunks
  change (fileinfo.counted.length : ℤ) ≤ _ at hle
  omega

end TCBackup.Client
