import Mathlib.Data.Nat.Size
import TCBackup.Client.Recipe

/-!
# Cutting files into chunks (`client/src/backup.c`, `client/lib/rabin.c`)

A rolling hash over the last 48 bytes marks the ends of chunks. A file is read in
blocks of 64 kilobytes, and what is left of a block goes in front of the next one.

## Main definitions

- `Rabin`, `slide` — the rolling hash
- `chunkData` — the length of the next chunk
- `chunkFile` — the chunks of a file

## Main results

- `chunkFile_flatten` — the chunks put together are the file
- `chunkFile_zeros` — a file of zeros
-/

namespace TCBackup.Client

open ByteFile

/-- `MIN_CHUNK_SIZE` -/
def minChunkSize : ℕ := 2048

/-- `MAX_CHUNK_SIZE` -/
def maxChunkSize : ℕ := 65536

/-- `FINGERPRINT_PT` -/
def fingerprintPt : UInt64 := 0xbfe6b8a5bf378d83

/-- The position of the highest bit, counted from 1. -/
def fls64 (v : UInt64) : ℕ := Nat.size v.toNat

def bit (v : UInt64) (i : ℕ) : Bool := v >>> (UInt64.ofNat i) &&& 1 = 1

def shl (v : UInt64) (i : ℕ) : UInt64 := v <<< UInt64.ofNat i

def shr (v : UInt64) (i : ℕ) : UInt64 := v >>> UInt64.ofNat i

/-- `polymod` -/
def polymod (nh nl d : UInt64) : UInt64 :=
  let k := fls64 d - 1
  let d := shl d (63 - k)
  let nh₀ := if bit nh 63 then nh ^^^ d else nh
  let (_, nl) := ((List.range 63).reverse).foldl
    (fun (n : UInt64 × UInt64) i =>
      if bit n.1 i then (n.1 ^^^ shr d (63 - i), n.2 ^^^ shl d (i + 1)) else n) (nh₀, nl)
  ((List.range' k (64 - k)).reverse).foldl
    (fun nl i => if bit nl i then nl ^^^ shr d (63 - i) else nl) nl

/-- `polymult`: the high and the low word. -/
def polymult (x y : UInt64) : UInt64 × UInt64 :=
  (List.range' 1 63).foldl
    (fun (p : UInt64 × UInt64) i => if bit x i then (p.1 ^^^ shr y (64 - i), p.2 ^^^ shl y i) else p)
    (0, if bit x 0 then y else 0)

/-- `polymmult` -/
def polymmult (x y d : UInt64) : UInt64 := polymod (polymult x y).1 (polymult x y).2 d

/-- `shift` -/
def rabinShift : ℕ := fls64 fingerprintPt - 1 - 8

/-- An entry of `T`. -/
def tableT (j : ℕ) : UInt64 :=
  let xshift := fls64 fingerprintPt - 1
  polymmult (UInt64.ofNat j) (polymod 0 (shl 1 xshift) fingerprintPt) fingerprintPt |||
    shl (UInt64.ofNat j) xshift

/-- `append8` -/
def append8 (p : UInt64) (m : UInt8) : UInt64 :=
  (shl p 8 ||| m.toUInt64) ^^^ tableT (shr p rabinShift).toNat

/-- `sizeshift`, after 47 steps. -/
def sizeshift : UInt64 := (List.range 47).foldl (fun p _ => append8 p 0) 1

/-- An entry of `U`. -/
def tableU (i : ℕ) : UInt64 := polymmult (UInt64.ofNat i) sizeshift fingerprintPt

/-- `size`, the bytes under the window. -/
def windowSize : ℕ := 48

/-- `fingerprint`, `bufpos` and `buf`. A `bufpos` of -1 is 47 here, which the next
step treats in the same way. -/
structure Rabin where
  fingerprint : UInt64
  bufpos : ℕ
  buf : ℕ → UInt8

/-- `chunk_alg_init` before every file: `bufpos` stays where it is. -/
def Rabin.reset (r : Rabin) : Rabin := ⟨0, r.bufpos, fun _ => 0⟩

/-- `SLIDE` -/
def slide (r : Rabin) (m : UInt8) : Rabin :=
  let bufpos := if windowSize ≤ r.bufpos + 1 then 0 else r.bufpos + 1
  let fingerprint := r.fingerprint ^^^ tableU (r.buf bufpos).toNat
  ⟨(shl fingerprint 8 ||| m.toUInt64) ^^^ tableT (shr fingerprint rabinShift).toNat, bufpos,
    Function.update r.buf bufpos m⟩

/-- `(fingerprint & chunk_size) == BREAKMARK_VALUE` -/
def breakmark (r : Rabin) : Bool := r.fingerprint &&& 0x1FFF = 0x78

/-- The loop of `chunk_data`, at the `i`-th byte. -/
def chunkLoop (r : Rabin) (i : ℕ) : Bytes → ℕ × Rabin
  | [] => (i, r)
  | m :: p =>
    let r := slide r m
    if breakmark r ∧ minChunkSize ≤ i ∨ maxChunkSize ≤ i ∨ p = [] then (i, r)
    else chunkLoop r (i + 1) p

/-- `chunk_data` -/
def chunkData (r : Rabin) (p : Bytes) : ℕ × Rabin := chunkLoop r 1 p

/-- The chunks of a block; what is left, and the hash. -/
def cutBlock : ℕ → Rabin → Bytes → List Bytes × Bytes × Rabin
  | 0, r, src => ([], src, r)
  | fuel + 1, r, src =>
    if src = [] then ([], [], r)
    else
      let (size, r) := chunkData r src
      if src.length = size ∧ src.length < maxChunkSize then ([], src, r)
      else
        let (chunks, left, r) := cutBlock fuel r (src.drop size)
        (src.take size :: chunks, left, r)

/-- The loop of `chunk_file`: `left` lies in front of `src`, `rest` has not been read. -/
def chunkBlocks : ℕ → Rabin → Bytes → Bytes → List Bytes × Rabin
  | 0, r, left, rest => (if left ++ rest = [] then [] else [left ++ rest], r)
  | fuel + 1, r, left, rest =>
    if rest = [] then (if left = [] then [] else [left], r)
    else
      let src := left ++ rest.take maxChunkSize
      if src.length < minChunkSize then ([src], r)
      else
        let (chunks, left, r) := cutBlock src.length r src
        let (more, r) := chunkBlocks fuel r left (rest.drop maxChunkSize)
        (chunks ++ more, r)

/-- `chunk_file`: the chunks of a file with these bytes. -/
def chunkFile (r : Rabin) (content : Bytes) : List Bytes × Rabin :=
  chunkBlocks content.length r.reset [] content

/-- The `FingerChunk`s for consecutive chunks from `offset` on. -/
def fingerChunks (sha1 : Bytes → Fingerprint) : ℕ → List Bytes → List FingerChunk
  | _, [] => []
  | offset, bs :: l =>
    { fingerchunkNew with chunk_hash := sha1 bs, chunklen := bs.length, offset := offset } ::
      fingerChunks sha1 (offset + bs.length) l

theorem chunkLoop_bounds {p : Bytes} (hp : p ≠ []) (r : Rabin) (i : ℕ) :
    i ≤ (chunkLoop r i p).1 ∧ (chunkLoop r i p).1 < i + p.length ∧
      (chunkLoop r i p).1 ≤ max i maxChunkSize := by
  induction p generalizing r i with
  | nil => exact absurd rfl hp
  | cons m p ih =>
    rw [chunkLoop, List.length_cons]
    split
    · exact ⟨le_refl i, by omega, le_max_left _ _⟩
    · next hgo =>
      obtain ⟨-, hlt, hne⟩ : _ ∧ ¬maxChunkSize ≤ i ∧ p ≠ [] :=
        ⟨fun h => hgo (.inl h), fun h => hgo (.inr (.inl h)), fun h => hgo (.inr (.inr h))⟩
      obtain ⟨hle, hend, hmax⟩ := ih hne (slide r m) (i + 1)
      refine ⟨by omega, by omega, ?_⟩
      omega

/-- A chunk has at least one byte, is no longer than what is there and has at most 64 kilobytes. -/
theorem chunkData_bounds {p : Bytes} (hp : p ≠ []) (r : Rabin) :
    0 < (chunkData r p).1 ∧ (chunkData r p).1 ≤ p.length ∧ (chunkData r p).1 ≤ maxChunkSize := by
  obtain ⟨hle, hend, hmax⟩ := chunkLoop_bounds hp r 1
  rw [chunkData]
  rw [maxChunkSize] at hmax ⊢
  omega

theorem maxChunkSize_pos : 0 < maxChunkSize := by decide

/-- What every chunk is like. -/
def IsChunk (c : Bytes) : Prop := c ≠ [] ∧ c.length ≤ maxChunkSize

theorem cutBlock_spec {fuel : ℕ} {r : Rabin} {src : Bytes} (h : src.length ≤ fuel) :
    (cutBlock fuel r src).1.flatten ++ (cutBlock fuel r src).2.1 = src ∧
      (∀ c ∈ (cutBlock fuel r src).1, IsChunk c) ∧
      (cutBlock fuel r src).2.1.length < maxChunkSize := by
  induction fuel generalizing r src with
  | zero =>
    have hnil : src = [] := List.length_eq_zero_iff.mp (Nat.le_zero.mp h)
    rw [cutBlock, hnil]
    exact ⟨rfl, by simp, maxChunkSize_pos⟩
  | succ fuel ih =>
    rw [cutBlock]
    split
    · next hnil => exact ⟨hnil.symm, by simp, maxChunkSize_pos⟩
    · next hne =>
      obtain ⟨hpos, hle, hmax⟩ := chunkData_bounds hne r
      dsimp only
      split
      · next hlast => exact ⟨rfl, by simp, hlast.2⟩
      · have hdrop : (src.drop (chunkData r src).1).length ≤ fuel := by
          rw [List.length_drop]
          omega
        obtain ⟨hflat, hchunks, hleft⟩ := ih (r := (chunkData r src).2) hdrop
        refine ⟨?_, ?_, hleft⟩
        · rw [List.flatten_cons, List.append_assoc, hflat, List.take_append_drop]
        · intro c hc
          rcases List.mem_cons.mp hc with rfl | hc
          · refine ⟨?_, ?_⟩
            · rw [Ne, List.take_eq_nil_iff]
              rintro (hz | hz)
              · omega
              · exact hne hz
            · rw [List.length_take]
              omega
          · exact hchunks c hc

theorem chunkBlocks_spec {fuel : ℕ} (r : Rabin) (left : Bytes) {rest : Bytes} (h : rest.length ≤ fuel)
    (hleft : left.length < maxChunkSize) :
    (chunkBlocks fuel r left rest).1.flatten = left ++ rest ∧
      ∀ c ∈ (chunkBlocks fuel r left rest).1, IsChunk c := by
  induction fuel generalizing r left rest with
  | zero =>
    have hnil : rest = [] := List.length_eq_zero_iff.mp (Nat.le_zero.mp h)
    rw [chunkBlocks, hnil, List.append_nil]
    by_cases hl : left = []
    · rw [if_pos hl, hl]
      exact ⟨rfl, by simp⟩
    · rw [if_neg hl]
      refine ⟨List.flatten_singleton, fun c hc => ?_⟩
      obtain rfl := List.mem_singleton.mp hc
      exact ⟨hl, hleft.le⟩
  | succ fuel ih =>
    rw [chunkBlocks]
    by_cases hnil : rest = []
    · rw [if_pos hnil, hnil, List.append_nil]
      by_cases hl : left = []
      · rw [if_pos hl, hl]
        exact ⟨rfl, by simp⟩
      · rw [if_neg hl]
        refine ⟨List.flatten_singleton, fun c hc => ?_⟩
        obtain rfl := List.mem_singleton.mp hc
        exact ⟨hl, hleft.le⟩
    · rw [if_neg hnil]
      dsimp only
      have hpos : 0 < rest.length := List.length_pos_iff.mpr hnil
      split
      · next hshort =>
        -- a short read is the end of the file
        have hall : rest.take maxChunkSize = rest := by
          refine List.take_of_length_le ?_
          rw [List.length_append, List.length_take, minChunkSize] at hshort
          rw [maxChunkSize] at hshort ⊢
          omega
        rw [hall] at hshort ⊢
        refine ⟨List.flatten_singleton, fun c hc => ?_⟩
        obtain rfl := List.mem_singleton.mp hc
        refine ⟨by simp [hnil], ?_⟩
        rw [minChunkSize] at hshort
        rw [maxChunkSize]
        omega
      · obtain ⟨hflat, hchunks, hleft'⟩ :=
          cutBlock_spec (r := r) (le_refl (left ++ rest.take maxChunkSize).length)
        have hdrop : (rest.drop maxChunkSize).length ≤ fuel := by
          rw [List.length_drop]
          omega
        obtain ⟨hmore, hmorechunks⟩ := ih (r := (cutBlock (left ++ rest.take maxChunkSize).length r
          (left ++ rest.take maxChunkSize)).2.2) _ hdrop hleft'
        refine ⟨?_, ?_⟩
        · rw [List.flatten_append, hmore, ← List.append_assoc, hflat, List.append_assoc,
            List.take_append_drop]
        · intro c hc
          rcases List.mem_append.mp hc with hc | hc
          · exact hchunks c hc
          · exact hmorechunks c hc

/-- The chunks put together are the file. -/
theorem chunkFile_flatten (r : Rabin) (content : Bytes) :
    (chunkFile r content).1.flatten = content := by
  have hspec := chunkBlocks_spec r.reset [] (le_refl content.length) (by decide)
  rw [chunkFile, hspec.1, List.nil_append]

theorem isChunk_chunkFile {r : Rabin} {content c : Bytes} (hc : c ∈ (chunkFile r content).1) :
    IsChunk c :=
  (chunkBlocks_spec r.reset [] (le_refl content.length) (by decide)).2 c hc

/-- Where the window starts after a step. -/
theorem slide_bufpos {r : Rabin} (h : r.bufpos < windowSize) (m : UInt8) :
    (slide r m).bufpos = (r.bufpos + 1) % windowSize := by
  rw [slide]
  rw [windowSize] at h ⊢
  dsimp only
  split <;> omega

theorem slide_fingerprint {r : Rabin} (h : r.bufpos < windowSize) (m : UInt8) :
    (slide r m).fingerprint =
      (shl (r.fingerprint ^^^ tableU (r.buf ((r.bufpos + 1) % windowSize)).toNat) 8 ||| m.toUInt64) ^^^
        tableT (shr (r.fingerprint ^^^ tableU (r.buf ((r.bufpos + 1) % windowSize)).toNat)
          rabinShift).toNat := by
  rw [← slide_bufpos h m]
  rfl

theorem slide_buf {r : Rabin} (h : r.bufpos < windowSize) (m : UInt8) {i : ℕ} (hi : i < windowSize) :
    (slide r m).buf (((slide r m).bufpos + 1 + i) % windowSize) =
      if i + 1 = windowSize then m else r.buf ((r.bufpos + 1 + (i + 1)) % windowSize) := by
  have hbuf : (slide r m).buf = Function.update r.buf (slide r m).bufpos m := rfl
  rw [hbuf, slide_bufpos h]
  have hpos : ((r.bufpos + 1) % windowSize + 1 + i) % windowSize =
      (r.bufpos + 1 + (i + 1)) % windowSize := by
    rw [windowSize]
    omega
  rw [hpos]
  by_cases hlast : i + 1 = windowSize
  · have heq : (r.bufpos + 1 + (i + 1)) % windowSize = (r.bufpos + 1) % windowSize := by
      rw [hlast, Nat.add_mod_right]
    rw [if_pos hlast, heq, Function.update_self]
  · rw [if_neg hlast, Function.update_of_ne]
    rw [windowSize] at hi hlast h ⊢
    omega

/-- A window of zeros. -/
structure Rabin.Zeroed (r : Rabin) : Prop where
  fingerprint : r.fingerprint = 0
  buf : ∀ i, r.buf i = 0

theorem zeroed_reset (r : Rabin) : r.reset.Zeroed := ⟨rfl, fun _ => rfl⟩

theorem Rabin.Zeroed.slide {r : Rabin} (h : r.Zeroed) : (slide r 0).Zeroed := by
  have hU : tableU 0 = 0 := by decide +kernel
  have hT : (shl 0 8 ||| (0 : UInt8).toUInt64) ^^^ tableT (shr 0 rabinShift).toNat = 0 := by
    decide +kernel
  constructor
  · simp only [Client.slide, h.fingerprint, h.buf, UInt64.zero_xor, UInt8.toNat_zero, hU, hT]
  · intro i
    rw [Client.slide]
    dsimp only
    rw [Function.update_apply, h.buf i, ite_self]

/-- No mark is in zeros, so a chunk is as long as it can be. -/
theorem chunkLoop_zeros {r : Rabin} (h : r.Zeroed) {n i : ℕ} (hn : i + n = maxChunkSize) :
    (chunkLoop r i (List.replicate (n + 1) 0)).1 = maxChunkSize ∧
      (chunkLoop r i (List.replicate (n + 1) 0)).2.Zeroed := by
  induction n generalizing r i with
  | zero => simpa [chunkLoop] using ⟨hn, h.slide⟩
  | succ n ih =>
    have hmark : breakmark (slide r 0) = false := by
      rw [breakmark, h.slide.fingerprint]
      decide
    rw [List.replicate_succ, chunkLoop, hmark, if_neg]
    · exact ih h.slide (by omega)
    · simp only [Bool.false_eq_true, false_and, false_or, List.replicate_eq_nil_iff]
      omega

theorem cutBlock_nil (fuel : ℕ) (r : Rabin) : cutBlock fuel r [] = ([], [], r) := by
  cases fuel with
  | zero => rfl
  | succ fuel => rw [cutBlock, if_pos rfl]

theorem zeros_ne_nil {n : ℕ} (hn : 0 < n) : List.replicate (n * maxChunkSize) (0 : UInt8) ≠ [] := by
  rw [Ne, List.replicate_eq_nil_iff]
  exact (Nat.mul_pos hn maxChunkSize_pos).ne'

/-- A block of zeros is one chunk. -/
theorem cutBlock_zeros {r : Rabin} (h : r.Zeroed) (fuel : ℕ) :
    ∃ r', r'.Zeroed ∧ cutBlock (fuel + 1) r (List.replicate maxChunkSize 0) =
      ([List.replicate maxChunkSize 0], [], r') := by
  obtain ⟨hsize, hzeroed⟩ : _ ∧ _ := chunkLoop_zeros (n := maxChunkSize - 1) (i := 1) h rfl
  rw [Nat.sub_add_cancel maxChunkSize_pos] at hsize hzeroed
  have hne : List.replicate maxChunkSize (0 : UInt8) ≠ [] := zeros_ne_nil Nat.one_pos
  have hlen : (List.replicate maxChunkSize (0 : UInt8)).length = maxChunkSize := List.length_replicate
  generalize List.replicate maxChunkSize (0 : UInt8) = src at hsize hzeroed hne hlen ⊢
  refine ⟨_, hzeroed, ?_⟩
  rw [cutBlock, if_neg hne, chunkData, hlen]
  dsimp only
  rw [hsize, if_neg fun hlast => Nat.lt_irrefl _ hlast.2, List.drop_of_length_le hlen.le, cutBlock_nil,
    List.take_of_length_le hlen.le]

theorem chunkBlocks_zeros {r : Rabin} (h : r.Zeroed) {n fuel : ℕ} (hn : n ≤ fuel) :
    (chunkBlocks fuel r [] (List.replicate (n * maxChunkSize) 0)).1 =
      List.replicate n (List.replicate maxChunkSize 0) := by
  induction fuel generalizing n r with
  | zero =>
    obtain rfl := Nat.le_zero.mp hn
    rw [Nat.zero_mul]
    rfl
  | succ fuel ih =>
    cases n with
    | zero =>
      rw [Nat.zero_mul]
      rfl
    | succ n =>
      have hlen : (n + 1) * maxChunkSize = maxChunkSize + n * maxChunkSize := by
        rw [Nat.succ_mul, Nat.add_comm]
      obtain ⟨r', hzeroed, hcut⟩ := cutBlock_zeros h (maxChunkSize - 1)
      rw [Nat.sub_add_cancel maxChunkSize_pos] at hcut
      rw [chunkBlocks, if_neg (zeros_ne_nil n.succ_pos), hlen, List.replicate_add,
        List.take_left' List.length_replicate, List.drop_left' List.length_replicate, List.nil_append]
      dsimp only
      rw [List.length_replicate, if_neg (by decide), hcut]
      dsimp only
      rw [ih hzeroed (by omega), List.singleton_append, List.replicate_succ]

/-- A file of zeros is cut into chunks of 64 kilobytes. -/
theorem chunkFile_zeros (r : Rabin) (n : ℕ) :
    (chunkFile r (List.replicate (n * maxChunkSize) 0)).1 =
      List.replicate n (List.replicate maxChunkSize 0) := by
  rw [chunkFile, List.length_replicate]
  exact chunkBlocks_zeros (zeroed_reset r) (Nat.le_mul_of_pos_right n maxChunkSize_pos)

variable {sha1 : Bytes → Fingerprint}

/-- A chunk records the hash, the length and the place of its bytes. -/
structure ChunkOf (sha1 : Bytes → Fingerprint) (content : Bytes) (fc : FingerChunk) : Prop where
  hash : fc.chunk_hash = sha1 (readAt content fc.offset fc.chunklen)
  inside : fc.offset + fc.chunklen ≤ content.length
  pos : 0 < fc.chunklen
  len : fc.chunklen ≤ maxChunkSize

theorem fingerChunks_spec (front : Bytes) {l : List Bytes} (h : ∀ c ∈ l, IsChunk c)
    {fc : FingerChunk} (hfc : fc ∈ fingerChunks sha1 front.length l) :
    ChunkOf sha1 (front ++ l.flatten) fc := by
  induction l generalizing front with
  | nil => simp [fingerChunks] at hfc
  | cons bs l ih =>
    have hbs := h bs (by simp)
    rw [fingerChunks, List.mem_cons] at hfc
    rw [List.flatten_cons]
    rcases hfc with rfl | hfc
    · refine ⟨?_, ?_, List.length_pos_iff.mpr hbs.1, hbs.2⟩
      · dsimp only
        rw [readAt, List.drop_left, List.take_left]
      · simp only [List.length_append]
        omega
    · rw [← List.append_assoc]
      refine ih _ (fun c hc => h c (List.mem_cons_of_mem _ hc)) ?_
      rw [List.length_append]
      exact hfc

/-- New chunks have no address, and their locks are free. -/
theorem fingerChunks_new {offset : ℕ} {l : List Bytes} {fc : FingerChunk}
    (hfc : fc ∈ fingerChunks sha1 offset l) :
    fc.is_new = .newChunk ∧ fc.chunkaddress = noAddress ∧ fc.mutex = false := by
  induction l generalizing offset with
  | nil => simp [fingerChunks] at hfc
  | cons bs l ih =>
    rw [fingerChunks, List.mem_cons] at hfc
    cases hfc with
    | inl hfc =>
      rw [hfc]
      exact ⟨rfl, rfl, rfl⟩
    | inr hfc => exact ih hfc

theorem mutex_fingerChunks {offset : ℕ} {l : List Bytes} {fc : FingerChunk}
    (hfc : fc ∈ fingerChunks sha1 offset l) : fc.mutex = false := (fingerChunks_new hfc).2.2

theorem length_fingerChunks (sha1 : Bytes → Fingerprint) (offset : ℕ) (l : List Bytes) :
    (fingerChunks sha1 offset l).length = l.length := by
  induction l generalizing offset with
  | nil => rfl
  | cons bs l ih => rw [fingerChunks, List.length_cons, List.length_cons, ih]

theorem sum_chunklen_fingerChunks (sha1 : Bytes → Fingerprint) (offset : ℕ) (l : List Bytes) :
    ((fingerChunks sha1 offset l).map FingerChunk.chunklen).sum = l.flatten.length := by
  induction l generalizing offset with
  | nil => rfl
  | cons bs l ih =>
    simp only [fingerChunks, List.map_cons, List.sum_cons, List.flatten_cons, List.length_append]
    rw [ih]

end TCBackup.Client
