import TCBackup.Client.Reads
import TCBackup.Lib.Sha1

/-!
# Hashing files (`client/lib/sha1.c`)

The digest of a file is computed from a buffer of 5000 bytes that `read` fills. The result
of `read` goes into an unsigned variable, so that the -1 of a failure becomes a length.

## Main definitions

- `SHA1Context`, `sha1Init`, `sha1Update`, `sha1Final` — the hash
- `sha1File` — `SHA1File`
- `Absorbed` — what a context knows about the message so far

## Main results

- `Absorbed.sha1Update`, `Absorbed.sha1Final` — the hash is SHA-1
- `exact_iff` — when `SHA1File` hashes exactly the file or reports an error
-/

namespace TCBackup.Client

open ByteFile Memory Sha1

-- ════════════════════════════════════════════════════════════════════════
-- The context
-- ════════════════════════════════════════════════════════════════════════

structure SHA1Context where
  Intermediate_Hash : Words
  Length_Low : UInt32
  Length_High : UInt32
  Message_Block_Index : ℕ
  Message_Block : Mem
  Computed : ℤ
  Corrupted : ℤ

/-- `shaSuccess` -/
def shaSuccess : ℤ := 0

/-- `shaStateError` -/
def shaStateError : ℤ := 3

/-- `SHA1CircularShift` -/
def sha1CircularShift (bits word : UInt32) : UInt32 := word <<< bits ||| word >>> (32 - bits)

/-- `SHA1Init`; the message block keeps what it holds. -/
def sha1Init (Message_Block : Mem) : SHA1Context where
  Intermediate_Hash := ⟨0x67452301, 0xEFCDAB89, 0x98BADCFE, 0x10325476, 0xC3D2E1F0⟩
  Length_Low := 0
  Length_High := 0
  Message_Block_Index := 0
  Message_Block := Message_Block
  Computed := 0
  Corrupted := 0

/-- One of the first 16 words of `W`. -/
def messageWord (block : Mem) (t : ℕ) : UInt32 :=
  (block (t * 4)).toUInt32 <<< 24 ||| (block (t * 4 + 1)).toUInt32 <<< 16 |||
    (block (t * 4 + 2)).toUInt32 <<< 8 ||| (block (t * 4 + 3)).toUInt32

/-- `W[t]` from the words before it. -/
def nextWord (W : List UInt32) (t : ℕ) : List UInt32 :=
  W ++ [sha1CircularShift 1
    (W.getD (t - 3) 0 ^^^ W.getD (t - 8) 0 ^^^ W.getD (t - 14) 0 ^^^ W.getD (t - 16) 0)]

/-- The array `W` after both loops. -/
def wordSequence (block : Mem) : List UInt32 :=
  (List.range' 16 64).foldl nextWord ((List.range 16).map (messageWord block))

/-- The body of the four loops: `g` is their function of `B`, `C` and `D`. -/
def sha1Round (g : UInt32 → UInt32 → UInt32 → UInt32) (K : UInt32) (W : List UInt32) (r : Words)
    (t : ℕ) : Words :=
  let temp := sha1CircularShift 5 r.a + g r.b r.c r.d + r.e + W.getD t 0 + K
  ⟨temp, r.a, sha1CircularShift 30 r.b, r.c, r.d⟩

/-- `SHA1ProcessMessageBlock` -/
def sha1ProcessMessageBlock (ctx : SHA1Context) : SHA1Context :=
  let W := wordSequence ctx.Message_Block
  let r := (List.range' 0 20).foldl
    (sha1Round (fun B C D => (B &&& C) ||| (~~~B &&& D)) 0x5A827999 W) ctx.Intermediate_Hash
  let r := (List.range' 20 20).foldl (sha1Round (fun B C D => B ^^^ C ^^^ D) 0x6ED9EBA1 W) r
  let r := (List.range' 40 20).foldl
    (sha1Round (fun B C D => (B &&& C) ||| (B &&& D) ||| (C &&& D)) 0x8F1BBCDC W) r
  let r := (List.range' 60 20).foldl (sha1Round (fun B C D => B ^^^ C ^^^ D) 0xCA62C1D6 W) r
  { ctx with
    Intermediate_Hash :=
      ⟨ctx.Intermediate_Hash.a + r.a, ctx.Intermediate_Hash.b + r.b, ctx.Intermediate_Hash.c + r.c,
        ctx.Intermediate_Hash.d + r.d, ctx.Intermediate_Hash.e + r.e⟩
    Message_Block_Index := 0 }

/-- `Message_Block[Message_Block_Index++] = b` -/
def putByte (ctx : SHA1Context) (b : UInt8) : SHA1Context :=
  { ctx with
    Message_Block := store ctx.Message_Block ctx.Message_Block_Index [b]
    Message_Block_Index := ctx.Message_Block_Index + 1 }

/-- The counters of `SHA1Update`, 8 bits further. -/
def countByte (ctx : SHA1Context) : SHA1Context :=
  let ctx := { ctx with Length_Low := ctx.Length_Low + 8 }
  if ctx.Length_Low = 0 then
    let ctx := { ctx with Length_High := ctx.Length_High + 1 }
    if ctx.Length_High = 0 then { ctx with Corrupted := 1 } else ctx
  else ctx

/-- The body of the loop of `SHA1Update`. -/
def updateByte (ctx : SHA1Context) (b : UInt8) : SHA1Context :=
  if (countByte (putByte ctx b)).Message_Block_Index = 64 then
    sha1ProcessMessageBlock (countByte (putByte ctx b))
  else countByte (putByte ctx b)

/-- The loop of `SHA1Update`. -/
def updateLoop (ctx : SHA1Context) : Bytes → SHA1Context
  | [] => ctx
  | b :: bs => if ctx.Corrupted ≠ 0 then ctx else updateLoop (updateByte ctx b) bs

/-- `SHA1Update(context, message_array, length)`, without its return code, which is not used. -/
def sha1Update (ctx : SHA1Context) (message_array : Mem) (length : ℕ) : SHA1Context :=
  if length = 0 then ctx
  else if ctx.Computed ≠ 0 then { ctx with Corrupted := shaStateError }
  else if ctx.Corrupted ≠ 0 then ctx
  else updateLoop ctx (load message_array 0 length)

/-- A loop of `SHA1PadMessage`: zeros up to `n`. -/
def zeroTo (n : ℕ) : ℕ → SHA1Context → SHA1Context
  | 0, ctx => ctx
  | fuel + 1, ctx => if ctx.Message_Block_Index < n then zeroTo n fuel (putByte ctx 0) else ctx

/-- The end of `SHA1PadMessage`: the length as the last 8 octets. -/
def storeLength (ctx : SHA1Context) : SHA1Context :=
  sha1ProcessMessageBlock { ctx with
    Message_Block := store ctx.Message_Block 56
      [(ctx.Length_High >>> 24).toUInt8, (ctx.Length_High >>> 16).toUInt8,
        (ctx.Length_High >>> 8).toUInt8, ctx.Length_High.toUInt8,
        (ctx.Length_Low >>> 24).toUInt8, (ctx.Length_Low >>> 16).toUInt8,
        (ctx.Length_Low >>> 8).toUInt8, ctx.Length_Low.toUInt8] }

/-- `SHA1PadMessage` -/
def sha1PadMessage (ctx : SHA1Context) : SHA1Context :=
  storeLength
    (if 55 < ctx.Message_Block_Index then
      zeroTo 56 64 (sha1ProcessMessageBlock (zeroTo 64 64 (putByte ctx 0x80)))
    else zeroTo 56 64 (putByte ctx 0x80))

/-- `Intermediate_Hash[i]` -/
def hashWord (h : Words) : ℕ → UInt32
  | 0 => h.a
  | 1 => h.b
  | 2 => h.c
  | 3 => h.d
  | _ => h.e

/-- `SHA1Final`: the result, the digest if one is written, and the context. -/
def sha1Final (ctx : SHA1Context) : ℤ × Option Bytes × SHA1Context :=
  if ctx.Corrupted ≠ 0 then (ctx.Corrupted, none, ctx)
  else
    let ctx :=
      if ctx.Computed = 0 then
        { sha1PadMessage ctx with Message_Block := store (sha1PadMessage ctx).Message_Block 0
                                    (List.replicate 64 0)
                                  Length_Low := 0, Length_High := 0, Computed := 1 }
      else ctx
    (shaSuccess,
      some ((List.range 20).map fun i =>
        (hashWord ctx.Intermediate_Hash (i / 4) >>> UInt32.ofNat (8 * (3 - i % 4))).toUInt8), ctx)

-- ════════════════════════════════════════════════════════════════════════
-- The file
-- ════════════════════════════════════════════════════════════════════════

/-- A call of `SHA1Update`: the bytes that the call of `read` before it has put into the buffer,
and the length it is told. -/
structure Update where
  filled : ℕ
  length : ℕ

/-- The variables of `SHA1File`. -/
structure FileHash where
  ctx : SHA1Context
  buf : Mem
  file : OpenFile
  updates : List Update

/-- The bytes of one read, none after a failure. -/
def ReadResult.filled : ReadResult → Bytes
  | .bytes bs => bs
  | _ => []

/-- What `read` returns. -/
def ReadResult.code : ReadResult → ℤ
  | .bytes bs => bs.length
  | _ => -1

/-- A conversion to `unsigned int`. -/
def uint32 (x : ℤ) : ℕ := (x % 2 ^ 32).toNat

/-- `sizeof(buf)` -/
def bufSize : ℕ := 5000

/-- The loop of `SHA1File`. -/
def fileLoop : ℕ → FileHash → FileHash
  | 0, s => s
  | fuel + 1, s =>
    let r := s.file.read bufSize
    let bufLength := uint32 r.1.code
    let s := { s with file := r.2, buf := store s.buf 0 r.1.filled }
    if 0 < bufLength then
      fileLoop fuel { s with
        ctx := sha1Update s.ctx s.buf bufLength
        updates := s.updates ++ [⟨r.1.filled.length, bufLength⟩] }
    else s

/-- `SHA1File` with the file that `open` returned: the result, the digest if one is written, and
the variables at the end. What the stack holds in their place and above the buffer is arbitrary. -/
def sha1File (block buf : Mem) (file : Option OpenFile) : ℤ × Option Bytes × Option FileHash :=
  match file with
  | none => (shaStateError, none, none)
  | some file =>
    let s := fileLoop (file.script.length + file.rest.length + 1) ⟨sha1Init block, buf, file, []⟩
    (shaSuccess, (sha1Final s.ctx).2.1, some s)

-- ════════════════════════════════════════════════════════════════════════
-- One block
-- ════════════════════════════════════════════════════════════════════════

theorem nextWord_eq : nextWord = extend := rfl

theorem getD_load (m : Mem) {i n : ℕ} (h : i < n) : (load m 0 n).getD i 0 = m i := by
  rw [List.getD_eq_getElem?_getD, getElem?_load m h, Option.getD_some, Nat.zero_add]

theorem messageWord_eq (block : Mem) {t : ℕ} (h : t < 16) :
    messageWord block t = wordAt (load block 0 64) t := by
  rw [messageWord, wordAt, getD_load _ (by omega), getD_load _ (by omega), getD_load _ (by omega),
    getD_load _ (by omega), Nat.mul_comm]

theorem wordSequence_eq (block : Mem) : wordSequence block = schedule (load block 0 64) := by
  have hfirst : (List.range 16).map (messageWord block) =
      (List.range 16).map (wordAt (load block 0 64)) :=
    List.map_congr_left fun t ht => messageWord_eq block (List.mem_range.mp ht)
  rw [wordSequence, schedule, nextWord_eq, hfirst]

theorem choose_eq (b c d : UInt32) : (b &&& c) ||| (~~~b &&& d) = (b &&& c) ^^^ (~~~b &&& d) := by
  rw [← UInt32.toBitVec_inj]
  refine BitVec.eq_of_getLsbD_eq fun i hi => ?_
  simp only [UInt32.toBitVec_or, UInt32.toBitVec_and, UInt32.toBitVec_xor, UInt32.toBitVec_not,
    BitVec.getLsbD_or, BitVec.getLsbD_and, BitVec.getLsbD_xor, BitVec.getLsbD_not]
  cases b.toBitVec.getLsbD i <;> cases c.toBitVec.getLsbD i <;> cases d.toBitVec.getLsbD i <;>
    simp [hi]

theorem majority_eq (b c d : UInt32) :
    (b &&& c) ||| (b &&& d) ||| (c &&& d) = (b &&& c) ^^^ (b &&& d) ^^^ (c &&& d) := by
  rw [← UInt32.toBitVec_inj]
  refine BitVec.eq_of_getLsbD_eq fun i _ => ?_
  simp only [UInt32.toBitVec_or, UInt32.toBitVec_and, UInt32.toBitVec_xor, BitVec.getLsbD_or,
    BitVec.getLsbD_and, BitVec.getLsbD_xor]
  cases b.toBitVec.getLsbD i <;> cases c.toBitVec.getLsbD i <;> cases d.toBitVec.getLsbD i <;> rfl

/-- A loop of 20 rounds. -/
theorem rounds_eq {g : UInt32 → UInt32 → UInt32 → UInt32} {K : UInt32} {first : ℕ}
    (hg : ∀ t, first ≤ t → t < first + 20 → (∀ B C D, g B C D = f t B C D) ∧ K = k t)
    (W : List UInt32) (r : Words) :
    (List.range' first 20).foldl (sha1Round g K W) r =
      (List.range' first 20).foldl (Sha1.round W) r := by
  refine List.foldl_ext _ _ r fun r t ht => ?_
  obtain ⟨hle, hlt⟩ := List.mem_range'_1.mp ht
  obtain ⟨hfun, hconst⟩ := hg t hle hlt
  rw [sha1Round, Sha1.round, hfun, hconst]
  rfl

theorem rounds_choose (W : List UInt32) (r : Words) :
    (List.range' 0 20).foldl
        (sha1Round (fun B C D => (B &&& C) ||| (~~~B &&& D)) 0x5A827999 W) r =
      (List.range' 0 20).foldl (Sha1.round W) r := by
  refine rounds_eq (fun t _ hlt => ?_) W r
  have hlt₁ : t < 20 := by omega
  refine ⟨fun B C D => ?_, ?_⟩
  · rw [f, if_pos hlt₁, choose_eq]
  · rw [k, if_pos hlt₁]

theorem rounds_parity (W : List UInt32) (r : Words) :
    (List.range' 20 20).foldl (sha1Round (fun B C D => B ^^^ C ^^^ D) 0x6ED9EBA1 W) r =
      (List.range' 20 20).foldl (Sha1.round W) r := by
  refine rounds_eq (fun t hle hlt => ?_) W r
  have hge₁ : ¬t < 20 := by omega
  have hlt₂ : t < 40 := by omega
  refine ⟨fun B C D => ?_, ?_⟩
  · rw [f, if_neg hge₁, if_pos hlt₂]
  · rw [k, if_neg hge₁, if_pos hlt₂]

theorem rounds_majority (W : List UInt32) (r : Words) :
    (List.range' 40 20).foldl
        (sha1Round (fun B C D => (B &&& C) ||| (B &&& D) ||| (C &&& D)) 0x8F1BBCDC W) r =
      (List.range' 40 20).foldl (Sha1.round W) r := by
  refine rounds_eq (fun t hle hlt => ?_) W r
  have hge₁ : ¬t < 20 := by omega
  have hge₂ : ¬t < 40 := by omega
  have hlt₃ : t < 60 := by omega
  refine ⟨fun B C D => ?_, ?_⟩
  · rw [f, if_neg hge₁, if_neg hge₂, if_pos hlt₃, majority_eq]
  · rw [k, if_neg hge₁, if_neg hge₂, if_pos hlt₃]

theorem rounds_last (W : List UInt32) (r : Words) :
    (List.range' 60 20).foldl (sha1Round (fun B C D => B ^^^ C ^^^ D) 0xCA62C1D6 W) r =
      (List.range' 60 20).foldl (Sha1.round W) r := by
  refine rounds_eq (fun t hle hlt => ?_) W r
  have hge₁ : ¬t < 20 := by omega
  have hge₂ : ¬t < 40 := by omega
  have hge₃ : ¬t < 60 := by omega
  refine ⟨fun B C D => ?_, ?_⟩
  · rw [f, if_neg hge₁, if_neg hge₂, if_neg hge₃]
  · rw [k, if_neg hge₁, if_neg hge₂, if_neg hge₃]

/-- `SHA1ProcessMessageBlock` is one block of SHA-1. -/
theorem sha1ProcessMessageBlock_eq (ctx : SHA1Context) :
    sha1ProcessMessageBlock ctx = { ctx with
      Intermediate_Hash := compress ctx.Intermediate_Hash (load ctx.Message_Block 0 64)
      Message_Block_Index := 0 } := by
  have hall : List.range 80 =
      List.range' 0 20 ++ (List.range' 20 20 ++ (List.range' 40 20 ++ List.range' 60 20)) := rfl
  rw [sha1ProcessMessageBlock]
  rw [rounds_choose, rounds_parity, rounds_majority, rounds_last, ← List.foldl_append,
    ← List.foldl_append, ← List.foldl_append, ← hall, wordSequence_eq, compress, Words.add]

-- ════════════════════════════════════════════════════════════════════════
-- The counters
-- ════════════════════════════════════════════════════════════════════════

/-- The length in bits, in two words. -/
structure Counts (ctx : SHA1Context) (n : ℕ) : Prop where
  low : ctx.Length_Low.toNat = 8 * n % 2 ^ 32
  high : ctx.Length_High.toNat = 8 * n / 2 ^ 32

/-- The longest message has a length below this. -/
def sha1Limit : ℕ := 2 ^ 61

theorem toNat_zero_iff (x : UInt32) : x = 0 ↔ x.toNat = 0 := by
  rw [← UInt32.toNat_inj]
  rfl

/-- One more byte: the counters go on, or the message has become too long. -/
theorem Counts.countByte {ctx : SHA1Context} {n : ℕ} (h : Counts ctx n) (hn : n < sha1Limit) :
    ∃ low high, (n + 1 < sha1Limit →
        Counts (countByte ctx) (n + 1) ∧
        countByte ctx = { ctx with Length_Low := low, Length_High := high }) ∧
      (¬n + 1 < sha1Limit →
        countByte ctx = { ctx with Length_Low := low, Length_High := high, Corrupted := 1 }) := by
  obtain ⟨hlow, hhigh⟩ := h
  rw [sha1Limit] at hn ⊢
  have hadd : (ctx.Length_Low + 8).toNat = (ctx.Length_Low.toNat + 8) % 2 ^ 32 := UInt32.toNat_add _ _
  have hsucc : (ctx.Length_High + 1).toNat = (ctx.Length_High.toNat + 1) % 2 ^ 32 :=
    UInt32.toNat_add _ _
  by_cases hwrap : ctx.Length_Low + 8 = 0
  · have hzero := (toNat_zero_iff _).mp hwrap
    by_cases hfull : ctx.Length_High + 1 = 0
    · have hzero' := (toNat_zero_iff _).mp hfull
      refine ⟨ctx.Length_Low + 8, ctx.Length_High + 1, fun hlt => ?_, fun _ => ?_⟩
      · omega
      · simp only [Client.countByte, hwrap, hfull, if_true]
    · have hne : ¬(ctx.Length_High + 1).toNat = 0 := fun heq => hfull ((toNat_zero_iff _).mpr heq)
      have hstep : Client.countByte ctx =
          { ctx with Length_Low := ctx.Length_Low + 8, Length_High := ctx.Length_High + 1 } := by
        simp only [Client.countByte, hwrap, hfull, if_true, if_false]
      refine ⟨ctx.Length_Low + 8, ctx.Length_High + 1, fun _ => ⟨⟨?_, ?_⟩, hstep⟩, fun hge => ?_⟩
      · rw [hstep]
        dsimp only
        omega
      · rw [hstep]
        dsimp only
        omega
      · omega
  · have hne : ¬(ctx.Length_Low + 8).toNat = 0 := fun heq => hwrap ((toNat_zero_iff _).mpr heq)
    have hstep : Client.countByte ctx =
        { ctx with Length_Low := ctx.Length_Low + 8, Length_High := ctx.Length_High } := by
      simp only [Client.countByte, hwrap, if_false]
    refine ⟨ctx.Length_Low + 8, ctx.Length_High, fun _ => ⟨⟨?_, ?_⟩, hstep⟩, fun hge => ?_⟩
    · rw [hstep]
      dsimp only
      omega
    · rw [hstep]
      dsimp only
      omega
    · omega

-- ════════════════════════════════════════════════════════════════════════
-- Streaming
-- ════════════════════════════════════════════════════════════════════════

/-- The bytes of the message block up to its index. -/
structure Holds (ctx : SHA1Context) (part : Bytes) : Prop where
  index : ctx.Message_Block_Index = part.length
  block : load ctx.Message_Block 0 part.length = part

theorem Holds.putByte {ctx : SHA1Context} {part : Bytes} (h : Holds ctx part) (b : UInt8) :
    Holds (putByte ctx b) (part ++ [b]) := by
  have hlength : (part ++ [b]).length = part.length + 1 := List.length_append
  refine ⟨?_, ?_⟩
  · rw [hlength, ← h.index]
    rfl
  · show load (store ctx.Message_Block ctx.Message_Block_Index [b]) 0 (part ++ [b]).length = _
    rw [hlength, h.index, load_add, Nat.zero_add, load_store_below _ (by omega), h.block]
    exact congrArg (part ++ ·) (load_store_self ctx.Message_Block part.length [b])

/-- The blocks in `front` have been hashed, and `part` lies in the message block. -/
structure Absorbed (ctx : SHA1Context) (front part : Bytes) : Prop where
  whole : front.length % 64 = 0
  short : part.length < 64
  holds : Holds ctx part
  hash : ctx.Intermediate_Hash = absorb initial front

theorem absorbed_sha1Init (block : Mem) : Absorbed (sha1Init block) [] [] :=
  ⟨rfl, by decide, ⟨rfl, rfl⟩, rfl⟩

/-- A full message block is hashed. -/
theorem absorb_full {ctx : SHA1Context} {front block : Bytes} (hwhole : front.length % 64 = 0)
    (hlength : block.length = 64) (hblock : load ctx.Message_Block 0 64 = block)
    (hhash : ctx.Intermediate_Hash = absorb initial front) :
    (sha1ProcessMessageBlock ctx).Intermediate_Hash = absorb initial (front ++ block) := by
  have hfront : front.length = 64 * (front.length / 64) := by omega
  rw [absorb_append initial hfront, absorb_block _ hlength, sha1ProcessMessageBlock_eq, hhash,
    hblock]

/-- What a context says of a message that was hashed so far: it is refused once it is too long. -/
structure Follows (ctx : SHA1Context) (msg : Bytes) : Prop where
  computed : ctx.Computed = 0
  fits : msg.length < sha1Limit → ctx.Corrupted = 0 ∧ Counts ctx msg.length ∧
    ∃ front part, msg = front ++ part ∧ Absorbed ctx front part
  overflows : ¬msg.length < sha1Limit → ctx.Corrupted ≠ 0

theorem follows_sha1Init (block : Mem) : Follows (sha1Init block) [] where
  computed := rfl
  fits := fun _ => ⟨rfl, ⟨rfl, rfl⟩, [], [], rfl, absorbed_sha1Init block⟩
  overflows := fun h => absurd (by decide) h

theorem Absorbed.updateByte {ctx : SHA1Context} {front part : Bytes} (h : Absorbed ctx front part)
    {b : UInt8} {low high : UInt32} (hcount : countByte (putByte ctx b) =
      { putByte ctx b with Length_Low := low, Length_High := high }) :
    ∃ front' part', front ++ part ++ [b] = front' ++ part' ∧
      Absorbed (updateByte ctx b) front' part' := by
  have hholds := h.holds.putByte b
  have hlength : (part ++ [b]).length = part.length + 1 := List.length_append
  rw [Client.updateByte, hcount]
  dsimp only
  rw [hholds.index]
  by_cases hfull : (part ++ [b]).length = 64
  · have hblock := hholds.block
    rw [hfull] at hblock
    rw [if_pos hfull]
    refine ⟨front ++ (part ++ [b]), [], by simp, ?_, by decide, ?_, ?_⟩
    · have hwhole := h.whole
      rw [List.length_append, hfull]
      omega
    · rw [sha1ProcessMessageBlock_eq]
      exact ⟨rfl, rfl⟩
    · exact absorb_full h.whole hfull hblock h.hash
  · have hshort := h.short
    rw [if_neg hfull]
    exact ⟨front, part ++ [b], List.append_assoc _ _ _, h.whole, by omega, ⟨rfl, hholds.block⟩,
      h.hash⟩

theorem updateByte_corrupted {ctx : SHA1Context} {b : UInt8} {low high : UInt32}
    (hcount : countByte (putByte ctx b) =
      { putByte ctx b with Length_Low := low, Length_High := high, Corrupted := 1 }) :
    (updateByte ctx b).Corrupted = 1 ∧ (updateByte ctx b).Computed = ctx.Computed := by
  rw [updateByte, hcount, sha1ProcessMessageBlock_eq]
  split <;> exact ⟨rfl, rfl⟩

theorem updateByte_counts {ctx : SHA1Context} {b : UInt8} {n : ℕ} {low high : UInt32}
    (hcounts : Counts (countByte (putByte ctx b)) n)
    (hcount : countByte (putByte ctx b) =
      { putByte ctx b with Length_Low := low, Length_High := high }) :
    Counts (updateByte ctx b) n ∧ (updateByte ctx b).Corrupted = ctx.Corrupted ∧
      (updateByte ctx b).Computed = ctx.Computed := by
  rw [hcount] at hcounts
  rw [updateByte, hcount, sha1ProcessMessageBlock_eq]
  split <;> exact ⟨⟨hcounts.low, hcounts.high⟩, rfl, rfl⟩

theorem Follows.updateByte {ctx : SHA1Context} {msg : Bytes} (h : Follows ctx msg)
    (hok : ctx.Corrupted = 0) (b : UInt8) : Follows (updateByte ctx b) (msg ++ [b]) := by
  have hlt : msg.length < sha1Limit := by
    by_contra hge
    exact h.overflows hge hok
  obtain ⟨-, hcounts, front, part, rfl, habsorbed⟩ := h.fits hlt
  have hput : Counts (putByte ctx b) (front ++ part).length := ⟨hcounts.low, hcounts.high⟩
  obtain ⟨low, high, hsmall, hlarge⟩ := hput.countByte hlt
  rw [← List.length_singleton (a := b), ← List.length_append] at hsmall hlarge
  by_cases hnext : (front ++ part ++ [b]).length < sha1Limit
  · obtain ⟨hcounts', hcount⟩ := hsmall hnext
    obtain ⟨hafter, hcorrupted, hcomputed⟩ := updateByte_counts hcounts' hcount
    exact ⟨hcomputed.trans h.computed,
      fun _ => ⟨hcorrupted.trans hok, hafter, habsorbed.updateByte hcount⟩,
      fun hge => absurd hnext hge⟩
  · obtain ⟨hcorrupted, hcomputed⟩ := updateByte_corrupted (hlarge hnext)
    refine ⟨hcomputed.trans h.computed, fun hlt' => absurd hlt' hnext, fun _ => ?_⟩
    rw [hcorrupted]
    decide

/-- A context that has refused a message refuses a longer one. -/
theorem Follows.refused {ctx : SHA1Context} {msg : Bytes} (h : Follows ctx msg)
    (hbad : ctx.Corrupted ≠ 0) (bs : Bytes) : Follows ctx (msg ++ bs) := by
  refine ⟨h.computed, fun hlt => ?_, fun _ => hbad⟩
  rw [List.length_append] at hlt
  exact absurd (h.fits (by omega)).1 hbad

theorem Follows.updateLoop {ctx : SHA1Context} {msg : Bytes} (h : Follows ctx msg) (bs : Bytes) :
    Follows (updateLoop ctx bs) (msg ++ bs) := by
  induction bs generalizing ctx msg with
  | nil => rwa [List.append_nil]
  | cons b bs ih =>
    rw [Client.updateLoop]
    by_cases hbad : ctx.Corrupted ≠ 0
    · rw [if_pos hbad]
      exact h.refused hbad (b :: bs)
    · rw [if_neg hbad]
      have hnext := ih (h.updateByte (not_not.mp hbad) b)
      rwa [List.append_assoc] at hnext

/-- `SHA1Update` goes on with the message. -/
theorem Follows.sha1Update {ctx : SHA1Context} {msg : Bytes} (h : Follows ctx msg) (m : Mem) (n : ℕ) :
    Follows (sha1Update ctx m n) (msg ++ load m 0 n) := by
  rw [Client.sha1Update]
  by_cases hzero : n = 0
  · have hnil : load m 0 0 = [] := rfl
    rw [if_pos hzero, hzero, hnil, List.append_nil]
    exact h
  · rw [if_neg hzero, if_neg (not_not.mpr h.computed)]
    by_cases hbad : ctx.Corrupted ≠ 0
    · rw [if_pos hbad]
      exact h.refused hbad _
    · rw [if_neg hbad]
      exact h.updateLoop _

-- ════════════════════════════════════════════════════════════════════════
-- Padding
-- ════════════════════════════════════════════════════════════════════════

/-- Only the message block and its index have changed. -/
structure Kept (ctx ctx' : SHA1Context) : Prop where
  hash : ctx'.Intermediate_Hash = ctx.Intermediate_Hash
  low : ctx'.Length_Low = ctx.Length_Low
  high : ctx'.Length_High = ctx.Length_High

theorem kept_putByte (ctx : SHA1Context) (b : UInt8) : Kept ctx (putByte ctx b) := ⟨rfl, rfl, rfl⟩

theorem Kept.trans {ctx ctx' ctx'' : SHA1Context} (h : Kept ctx ctx') (h' : Kept ctx' ctx'') :
    Kept ctx ctx'' :=
  ⟨h'.hash.trans h.hash, h'.low.trans h.low, h'.high.trans h.high⟩

theorem Kept.counts {ctx ctx' : SHA1Context} {n : ℕ} (h : Kept ctx ctx') (hcounts : Counts ctx n) :
    Counts ctx' n := ⟨by rw [h.low, hcounts.low], by rw [h.high, hcounts.high]⟩

/-- A loop that writes zeros up to `n`. -/
theorem zeroTo_spec (n fuel : ℕ) (ctx : SHA1Context) {part : Bytes} (h : Holds ctx part)
    (hle : part.length ≤ n) (hfuel : n ≤ part.length + fuel) :
    ∃ ctx', zeroTo n fuel ctx = ctx' ∧ Kept ctx ctx' ∧
      Holds ctx' (part ++ List.replicate (n - part.length) 0) := by
  induction fuel generalizing ctx part with
  | zero =>
    have hzero : n - part.length = 0 := by omega
    rw [hzero, List.replicate_zero, List.append_nil]
    exact ⟨ctx, rfl, ⟨rfl, rfl, rfl⟩, h⟩
  | succ fuel ih =>
    rw [zeroTo, h.index]
    by_cases hlt : part.length < n
    · have hlength : (part ++ [(0 : UInt8)]).length = part.length + 1 := List.length_append
      obtain ⟨ctx', hrun, hkept, hholds⟩ := ih (Client.putByte ctx 0) (h.putByte 0)
        (by omega) (by omega)
      have hnum : n - part.length = (n - (part.length + 1)) + 1 := by omega
      rw [if_pos hlt, hnum, List.replicate_succ]
      rw [hlength, List.append_assoc, List.singleton_append] at hholds
      exact ⟨ctx', hrun, (kept_putByte ctx 0).trans hkept, hholds⟩
    · have hzero : n - part.length = 0 := by omega
      rw [if_neg hlt, hzero, List.replicate_zero, List.append_nil]
      exact ⟨ctx, rfl, ⟨rfl, rfl, rfl⟩, h⟩

/-- A byte of a word. -/
theorem byte_eq (w : UInt32) {j : ℕ} (hj : j < 4) :
    (w >>> UInt32.ofNat (8 * j)).toUInt8 = UInt8.ofNat (w.toNat / 256 ^ j) := by
  have hpow : (256 : ℕ) ^ j = 2 ^ (8 * j) := by rw [Nat.pow_mul]
  have hshift : (UInt32.ofNat (8 * j)).toNat % 32 = 8 * j := by
    rw [UInt32.toNat_ofNat']
    omega
  rw [← UInt8.toNat_inj, UInt32.toNat_toUInt8, UInt32.toNat_shiftRight, hshift,
    Nat.shiftRight_eq_div_pow, UInt8.toNat_ofNat', hpow]

/-- The two words of the length. -/
theorem Counts.bytes {ctx : SHA1Context} {n : ℕ} (h : Counts ctx n) :
    [(ctx.Length_High >>> 24).toUInt8, (ctx.Length_High >>> 16).toUInt8,
      (ctx.Length_High >>> 8).toUInt8, ctx.Length_High.toUInt8,
      (ctx.Length_Low >>> 24).toUInt8, (ctx.Length_Low >>> 16).toUInt8,
      (ctx.Length_Low >>> 8).toUInt8, ctx.Length_Low.toUInt8] = beBytes 8 (8 * n) := by
  have hhigh : ∀ j < 4, (ctx.Length_High >>> UInt32.ofNat (8 * j)).toUInt8 =
      UInt8.ofNat (8 * n / 256 ^ (4 + j)) := by
    intro j hj
    rw [byte_eq _ hj, h.high, Nat.div_div_eq_div_mul, Nat.pow_add]
    rfl
  have hlow : ∀ j < 4, (ctx.Length_Low >>> UInt32.ofNat (8 * j)).toUInt8 =
      UInt8.ofNat (8 * n / 256 ^ j) := by
    intro j hj
    rw [byte_eq _ hj, h.low, ← UInt8.toNat_inj, UInt8.toNat_ofNat', UInt8.toNat_ofNat']
    have hcase : j = 0 ∨ j = 1 ∨ j = 2 ∨ j = 3 := by omega
    obtain rfl | rfl | rfl | rfl := hcase <;> omega
  have hzero : ∀ w : UInt32, w.toUInt8 = (w >>> UInt32.ofNat (8 * 0)).toUInt8 := by
    intro w
    rw [byte_eq w (by decide), ← UInt8.toNat_inj, UInt32.toNat_toUInt8, UInt8.toNat_ofNat',
      pow_zero, Nat.div_one]
  rw [hzero ctx.Length_High, hzero ctx.Length_Low]
  have hlist : beBytes 8 (8 * n) =
      [UInt8.ofNat (8 * n / 256 ^ (4 + 3)), UInt8.ofNat (8 * n / 256 ^ (4 + 2)),
        UInt8.ofNat (8 * n / 256 ^ (4 + 1)), UInt8.ofNat (8 * n / 256 ^ (4 + 0)),
        UInt8.ofNat (8 * n / 256 ^ 3), UInt8.ofNat (8 * n / 256 ^ 2),
        UInt8.ofNat (8 * n / 256 ^ 1), UInt8.ofNat (8 * n / 256 ^ 0)] := rfl
  rw [hlist, ← hhigh 3 (by decide), ← hhigh 2 (by decide), ← hhigh 1 (by decide),
    ← hhigh 0 (by decide), ← hlow 3 (by decide), ← hlow 2 (by decide), ← hlow 1 (by decide),
    ← hlow 0 (by decide)]
  rfl

/-- The last block ends in the length. -/
theorem storeLength_hash (ctx : SHA1Context) {front last : Bytes} {n : ℕ} (hcounts : Counts ctx n)
    (hwhole : front.length % 64 = 0) (hlast : last.length = 56)
    (hblock : load ctx.Message_Block 0 56 = last)
    (hhash : ctx.Intermediate_Hash = absorb initial front) :
    (storeLength ctx).Intermediate_Hash =
      absorb initial (front ++ (last ++ beBytes 8 (8 * n))) := by
  have hlength : (last ++ beBytes 8 (8 * n)).length = 64 := by
    rw [List.length_append, hlast, length_beBytes]
  rw [storeLength, hcounts.bytes]
  refine absorb_full hwhole hlength ?_ hhash
  have hself := load_store_self ctx.Message_Block 56 (beBytes 8 (8 * n))
  rw [length_beBytes] at hself
  show load (store ctx.Message_Block 56 (beBytes 8 (8 * n))) 0 (56 + 8) = _
  rw [load_add, load_store_below _ (by decide), hblock, Nat.zero_add, hself]

theorem sha1ProcessMessageBlock_rest (ctx : SHA1Context) :
    (sha1ProcessMessageBlock ctx).Length_Low = ctx.Length_Low ∧
      (sha1ProcessMessageBlock ctx).Length_High = ctx.Length_High ∧
      Holds (sha1ProcessMessageBlock ctx) [] := by
  rw [sha1ProcessMessageBlock_eq]
  exact ⟨rfl, rfl, rfl, rfl⟩

/-- The length goes into the block of the padding. -/
theorem sha1PadMessage_one {ctx : SHA1Context} {front marked : Bytes} {n : ℕ}
    (hwhole : front.length % 64 = 0) (hhash : ctx.Intermediate_Hash = absorb initial front)
    (hholds : Holds ctx marked) (hcounts : Counts ctx n) (hle : marked.length ≤ 56) :
    (storeLength (zeroTo 56 64 ctx)).Intermediate_Hash =
      absorb initial (front ++ (marked ++ List.replicate (56 - marked.length) 0 ++
        beBytes 8 (8 * n))) := by
  obtain ⟨ctx', hrun, hkept, hholds'⟩ := zeroTo_spec 56 64 ctx hholds hle (by omega)
  have hlast : (marked ++ List.replicate (56 - marked.length) (0 : UInt8)).length = 56 := by
    rw [List.length_append, List.length_replicate]
    omega
  have hblock := hholds'.block
  rw [hlast] at hblock
  rw [hrun]
  exact storeLength_hash ctx' (hkept.counts hcounts) hwhole hlast hblock (hkept.hash.trans hhash)

/-- The length goes into a block of its own. -/
theorem sha1PadMessage_two {ctx : SHA1Context} {front marked : Bytes} {n : ℕ}
    (hwhole : front.length % 64 = 0) (hhash : ctx.Intermediate_Hash = absorb initial front)
    (hholds : Holds ctx marked) (hcounts : Counts ctx n) (hle : marked.length ≤ 64) :
    (storeLength (zeroTo 56 64 (sha1ProcessMessageBlock (zeroTo 64 64 ctx)))).Intermediate_Hash =
      absorb initial (front ++ (marked ++ List.replicate (64 - marked.length) 0) ++
        (List.replicate 56 0 ++ beBytes 8 (8 * n))) := by
  obtain ⟨ctx', hrun, hkept, hholds'⟩ := zeroTo_spec 64 64 ctx hholds hle (by omega)
  have hlast : (marked ++ List.replicate (64 - marked.length) (0 : UInt8)).length = 64 := by
    rw [List.length_append, List.length_replicate]
    omega
  have hblock := hholds'.block
  rw [hlast] at hblock
  rw [hrun]
  have hfirst := absorb_full hwhole hlast hblock (hkept.hash.trans hhash)
  obtain ⟨hlow, hhigh, hempty⟩ := sha1ProcessMessageBlock_rest ctx'
  have hcounts' := hkept.counts hcounts
  have hnext : Counts (sha1ProcessMessageBlock ctx') n :=
    ⟨by rw [hlow, hcounts'.low], by rw [hhigh, hcounts'.high]⟩
  have hwhole' : (front ++ (marked ++ List.replicate (64 - marked.length) 0)).length % 64 = 0 := by
    rw [List.length_append, hlast]
    omega
  have hdone := sha1PadMessage_one hwhole' hfirst hempty hnext (Nat.zero_le _)
  rwa [List.length_nil, Nat.sub_zero, List.nil_append] at hdone

/-- `SHA1PadMessage` pads the message. -/
theorem sha1PadMessage_hash {ctx : SHA1Context} {front part : Bytes} (h : Absorbed ctx front part)
    (hcounts : Counts ctx (front ++ part).length) :
    (sha1PadMessage ctx).Intermediate_Hash = absorb initial (pad (front ++ part)) := by
  have hshort := h.short
  have hmod : (front ++ part).length % 64 = part.length := by
    have hwhole := h.whole
    rw [List.length_append]
    omega
  have hkept := kept_putByte ctx 0x80
  have hholds : Holds (putByte ctx 0x80) (part ++ [0x80]) :=
    h.holds.putByte 0x80
  have hone : (part ++ [(0x80 : UInt8)]).length = part.length + 1 := List.length_append
  rw [sha1PadMessage, pad, padding, hmod, h.holds.index]
  by_cases htwo : 55 < part.length
  · have hnum : (119 - part.length) % 64 = (64 - (part.length + 1)) + 56 := by omega
    rw [if_pos htwo, sha1PadMessage_two h.whole (hkept.hash.trans h.hash) hholds
      (hkept.counts hcounts) (by omega), hone, hnum, List.replicate_add]
    simp only [List.append_assoc, List.cons_append, List.nil_append]
  · have hnum : (119 - part.length) % 64 = 56 - (part.length + 1) := by omega
    rw [if_neg htwo, sha1PadMessage_one h.whole (hkept.hash.trans h.hash) hholds
      (hkept.counts hcounts) (by omega), hone, hnum]
    simp only [List.append_assoc, List.cons_append, List.nil_append]

theorem digest_eq (h : Words) :
    ((List.range 20).map fun i =>
      (hashWord h (i / 4) >>> UInt32.ofNat (8 * (3 - i % 4))).toUInt8) = digest h := by
  have hbytes : ((List.range 20).map fun i =>
      (hashWord h (i / 4) >>> UInt32.ofNat (8 * (3 - i % 4))).toUInt8) =
      (List.range 20).map fun i => UInt8.ofNat ((hashWord h (i / 4)).toNat / 256 ^ (3 - i % 4)) := by
    refine List.map_congr_left fun i _ => ?_
    exact byte_eq _ (by omega)
  rw [hbytes]
  rfl

/-- The digest is that of SHA-1, unless the message is too long. -/
theorem Follows.sha1Final {ctx : SHA1Context} {msg : Bytes} (h : Follows ctx msg) :
    (sha1Final ctx).2.1 = if msg.length < sha1Limit then some (sha1 msg).toList else none := by
  rw [Client.sha1Final]
  by_cases hlt : msg.length < sha1Limit
  · obtain ⟨hok, hcounts, front, part, rfl, habsorbed⟩ := h.fits hlt
    rw [if_neg (not_not.mpr hok), if_pos hlt, if_pos h.computed]
    dsimp only
    rw [digest_eq, sha1PadMessage_hash habsorbed hcounts]
    rfl
  · rw [if_pos (h.overflows hlt), if_neg hlt]

-- ════════════════════════════════════════════════════════════════════════
-- The whole file
-- ════════════════════════════════════════════════════════════════════════

/-- No call of `read` fails before one reports the end of the file. -/
inductive ReadsToEnd : OpenFile → Prop
  | ends {f : OpenFile} (h : (f.read bufSize).1 = .bytes []) : ReadsToEnd f
  | more {f : OpenFile} {bs : Bytes} (h : (f.read bufSize).1 = .bytes bs) (hne : bs ≠ [])
      (hnext : ReadsToEnd (f.read bufSize).2) : ReadsToEnd f

/-- `SHA1Update` was told as many bytes as were read into the buffer. -/
def Update.Honest (u : Update) : Prop := u.length = u.filled ∧ u.length ≤ bufSize

theorem uint32_length {bs : Bytes} (h : bs.length ≤ bufSize) :
    uint32 (ReadResult.bytes bs).code = bs.length := by
  rw [bufSize] at h
  rw [uint32, ReadResult.code]
  omega

theorem bufSize_pos : 0 < bufSize := by decide

/-- A call of `read` that gives bytes. -/
theorem OpenFile.read_bytes {f : OpenFile} {bs : Bytes} (h : (f.read bufSize).1 = .bytes bs) :
    f.rest = bs ++ (f.read bufSize).2.rest ∧ bs.length ≤ bufSize ∧
      (f.read bufSize).2.script.length ≤ f.script.length ∧ (bs = [] → f.rest = []) := by
  obtain ⟨hread, -⟩ | ⟨hread, -⟩ | ⟨cs, hread, hreads, hle, hscript, hend⟩ :=
    f.read_spec bufSize_pos
  · rw [h] at hread
    cases hread
  · rw [h] at hread
    cases hread
  · rw [h] at hread
    obtain rfl := ReadResult.bytes.inj hread
    exact ⟨hreads.rest, hle, hscript, hend⟩

/-- The loop without a failure. -/
theorem ReadsToEnd.fileLoop {f : OpenFile} (h : ReadsToEnd f) (fuel : ℕ) (s : FileHash)
    (hfile : s.file = f) (hfuel : f.script.length + f.rest.length < fuel) {msg : Bytes}
    (hctx : Follows s.ctx msg) (hs : ∀ u ∈ s.updates, u.Honest) :
    Follows (fileLoop fuel s).ctx (msg ++ f.rest) ∧ ∀ u ∈ (fileLoop fuel s).updates, u.Honest := by
  induction h generalizing fuel s msg with
  | @ends f h =>
    obtain ⟨fuel, rfl⟩ := Nat.exists_eq_add_of_lt hfuel
    have hzero : uint32 (ReadResult.bytes []).code = 0 := rfl
    rw [Client.fileLoop, hfile, h]
    dsimp only
    rw [hzero, if_neg (Nat.lt_irrefl 0), (OpenFile.read_bytes h).2.2.2 rfl, List.append_nil]
    exact ⟨hctx, hs⟩
  | @more f bs h hne _ ih =>
    obtain ⟨fuel, rfl⟩ := Nat.exists_eq_add_of_lt hfuel
    obtain ⟨hrest, hle, hscript, -⟩ := OpenFile.read_bytes h
    have hpos : 0 < bs.length := List.length_pos_iff.mpr hne
    have hload : load (store s.buf 0 bs) 0 bs.length = bs := load_store_self _ _ _
    rw [Client.fileLoop, hfile, h]
    dsimp only [ReadResult.filled]
    rw [uint32_length hle, if_pos hpos]
    have hnext := hctx.sha1Update (store s.buf 0 bs) bs.length
    rw [hload] at hnext
    have hall := ih (f.script.length + f.rest.length + fuel)
      ⟨sha1Update s.ctx (store s.buf 0 bs) bs.length, store s.buf 0 bs, (f.read bufSize).2,
        s.updates ++ [⟨bs.length, bs.length⟩]⟩ rfl
      (by rw [hrest, List.length_append]; omega) hnext ?_
    · rwa [List.append_assoc, ← hrest] at hall
    · intro u hu
      cases List.mem_append.mp hu with
      | inl hold => exact hs u hold
      | inr hnew =>
        rw [List.mem_singleton.mp hnew]
        exact ⟨rfl, hle⟩

theorem fileLoop_updates (fuel : ℕ) (s : FileHash) : s.updates <+: (fileLoop fuel s).updates := by
  induction fuel generalizing s with
  | zero => exact List.prefix_refl _
  | succ fuel ih =>
    rw [fileLoop]
    dsimp only
    split
    · refine List.IsPrefix.trans ?_ (ih _)
      exact List.prefix_append _ _
    · exact List.prefix_refl _

/-- After a failed read the whole range of `unsigned` is hashed. -/
theorem fileLoop_failed (fuel : ℕ) (s : FileHash)
    (hfuel : s.file.script.length + s.file.rest.length < fuel) (h : ¬ReadsToEnd s.file) :
    ⟨0, 4294967295⟩ ∈ (fileLoop fuel s).updates := by
  induction fuel generalizing s with
  | zero => omega
  | succ fuel ih =>
    have hcode : ∀ r : ReadResult, r.code = -1 → uint32 r.code = 4294967295 := by
      intro r hr
      rw [hr]
      rfl
    rw [fileLoop]
    dsimp only
    cases hread : (s.file.read bufSize).1 with
    | bytes bs =>
      have hne : bs ≠ [] := by
        rintro rfl
        exact h (.ends hread)
      obtain ⟨hrest, hle, hscript, -⟩ := OpenFile.read_bytes hread
      have hpos : 0 < bs.length := List.length_pos_iff.mpr hne
      rw [uint32_length hle, if_pos hpos]
      refine ih _ ?_ fun hnext => h (.more hread hne hnext)
      rw [hrest, List.length_append] at hfuel
      dsimp only
      omega
    | _ =>
      rw [hcode _ rfl, if_pos (by decide)]
      refine (fileLoop_updates fuel _).subset (List.mem_append_right _ ?_)
      exact List.mem_singleton.mpr rfl

/-- `SHA1File` hashes exactly the file or reports an error. -/
structure Exact (file : OpenFile) (result : ℤ × Option Bytes × Option FileHash) : Prop where
  lengths : ∀ s ∈ result.2.2, ∀ u ∈ s.updates, u.Honest
  digest : ReadsToEnd file → result.2.1 = some (sha1 file.rest).toList
  failure : ¬ReadsToEnd file → result.1 ≠ shaSuccess

theorem sha1File_ends {file : OpenFile} (h : ReadsToEnd file) (block buf : Mem) :
    (sha1File block buf (some file)).2.1 =
        (if file.rest.length < sha1Limit then some (sha1 file.rest).toList else none) ∧
      ∀ s ∈ (sha1File block buf (some file)).2.2, ∀ u ∈ s.updates, u.Honest := by
  obtain ⟨hctx, hupdates⟩ := h.fileLoop (file.script.length + file.rest.length + 1)
    ⟨sha1Init block, buf, file, []⟩ rfl (Nat.lt_succ_self _) (follows_sha1Init block) (by simp)
  rw [List.nil_append] at hctx
  refine ⟨hctx.sha1Final, fun s hs => ?_⟩
  obtain rfl := Option.some.inj hs
  exact hupdates

/-- `SHA1File` keeps its word for the files that can be read, up to the longest message. -/
theorem exact_iff (block buf : Mem) (file : OpenFile) :
    Exact file (sha1File block buf (some file)) ↔
      ReadsToEnd file ∧ file.rest.length < sha1Limit := by
  constructor
  · intro h
    have hends : ReadsToEnd file := by
      by_contra hfails
      exact h.failure hfails rfl
    refine ⟨hends, ?_⟩
    by_contra hlong
    have hdigest := h.digest hends
    rw [(sha1File_ends hends block buf).1, if_neg hlong] at hdigest
    cases hdigest
  · rintro ⟨hends, hlimit⟩
    obtain ⟨hdigest, hlengths⟩ := sha1File_ends hends block buf
    rw [if_pos hlimit] at hdigest
    exact ⟨hlengths, fun _ => hdigest, fun hfails => absurd hends hfails⟩

/-- A failed read is hashed as if it had filled the memory. -/
theorem sha1File_failed :
    ¬ ∀ (block buf : Mem) (file : OpenFile), Exact file (sha1File block buf (some file)) := by
  intro h
  have hfails : ¬ReadsToEnd ⟨[7], [.fails]⟩ := by
    intro hends
    cases hends with
    | ends h => cases h
    | more h => cases h
  have hlengths := (h (fun _ => 0) (fun _ => 0) ⟨[7], [.fails]⟩).lengths _ rfl ⟨0, 4294967295⟩
    (fileLoop_failed _ _ (Nat.lt_succ_self _) hfails)
  exact absurd hlengths.1 (by decide)

end TCBackup.Client
