import Mathlib.Data.List.TakeWhile
import TCBackup.Client.Disk
import TCBackup.Client.HTable
import TCBackup.Lib.Numeral

/-!
# Containers (`client/src/container.c`)

Chunks are collected in containers of at most four mebibytes. A container file
holds a header, the place of every chunk, and the data, where every chunk is
followed by a tab.

## Main definitions

- `getContainerName`, `initContainer` — names and fresh containers
- `appendChunkToContainer`, `readChunkFromContainer` — chunks in memory
- `writeContainer`, `readContainer` — container files
-/

namespace TCBackup.Client

open ByteFile

/-- Where a chunk lies in the data of its container. -/
structure ChunkAddr where
  offset : ℤ
  length : ℤ
  hash : Fingerprint
  deriving DecidableEq

structure Chunk where
  length : ℕ
  hash : Fingerprint
  address : Chunkaddress
  data : Bytes
  deriving DecidableEq

/-- The buffer is zero behind the bytes of `data_buffer`. -/
structure Container where
  data_size : ℕ
  chunk_num : ℕ
  name : Chunkaddress
  meta_table : HTable 20 ChunkAddr
  data_buffer : Bytes

/-- `DEFAULT_CONTAINER_SIZE` -/
def defaultContainerSize : ℕ := 4 * 1024 * 1024

/-- The bytes of a `char` array up to its NUL. -/
def cstr (name : Chunkaddress) : Bytes := name.toList.takeWhile (· ≠ 0)

/-- A string that fits is read back up to its NUL. -/
theorem cstr_fixed {bs : Bytes} (hlen : bs.length ≤ 64) (h0 : (0 : UInt8) ∉ bs) :
    cstr (fixed 64 bs) = bs := by
  have hlist : (fixed 64 bs).toList = bs ++ List.replicate (64 - bs.length) 0 := by
    simp [fixed, List.Vector.toList, List.take_of_length_le hlen]
  have hall : ∀ b ∈ bs, decide (b ≠ 0) = true := by
    intro b hb
    rw [decide_eq_true_eq]
    rintro rfl
    exact h0 hb
  rw [cstr, hlist, List.takeWhile_append_of_pos hall]
  cases 64 - bs.length <;> simp [List.replicate_succ]

theorem cstr_length_le (name : Chunkaddress) : (cstr name).length ≤ 64 := by
  have h := (List.takeWhile_prefix (fun b => decide (b ≠ 0)) (l := name.toList)).length_le
  rwa [name.toList_length] at h

theorem zero_notMem_cstr (name : Chunkaddress) : (0 : UInt8) ∉ cstr name := by
  intro h
  have := List.mem_takeWhile_imp h
  simp at this

theorem cstr_fixed_cstr (name : Chunkaddress) : cstr (fixed 64 (cstr name)) = cstr name :=
  cstr_fixed (cstr_length_le name) (zero_notMem_cstr name)

/-- The bytes behind the string are zero, as `memset` leaves them. -/
def Padded (name : Chunkaddress) : Prop := fixed 64 (cstr name) = name

instance (name : Chunkaddress) : Decidable (Padded name) := inferInstanceAs (Decidable (_ = _))

theorem Padded.eq_of_cstr {name name' : Chunkaddress} (h : Padded name) (h' : Padded name')
    (heq : cstr name = cstr name') : name = name' := by
  rw [← h, ← h', heq]

/-- What one call of `GetContainerName` prints: the clock and the counter. -/
structure NameCall where
  second : ℤ
  randomabc : ℤ
  deriving DecidableEq

/-- `sprintf(name, "%011o%d", (int)time(NULL), randomabc)` -/
def NameCall.text (c : NameCall) : Bytes :=
  padded 11 (numeral 8 (c.second % 2 ^ 32).toNat) ++ intNumeral c.randomabc

def NameCall.name (c : NameCall) : Chunkaddress := fixed 64 c.text

/-- The counter of the process, and the calls made so far by all processes. -/
structure Names where
  randomabc : ℤ
  calls : List NameCall

/-- A process that has not named a container. -/
def Names.start (n : Names) : Names := { n with randomabc := 1 }

variable (clock : ℕ → ℤ)

/-- `GetContainerName`. `clock i` is what `time` returns to the `i`-th call. -/
def getContainerName (n : Names) : Chunkaddress × Names :=
  let randomabc := (n.randomabc + 1).bmod (2 ^ 32)
  let call : NameCall := ⟨clock n.calls.length, randomabc⟩
  (call.name, ⟨randomabc, n.calls ++ [call]⟩)

/-- `InitContainer` -/
def initContainer (n : Names) : Container × Names :=
  let (name, n) := getContainerName clock n
  (⟨0, 0, name, htableInit 512, []⟩, n)

/-- `(32+size*28+data_size) > DEFAULT_CONTAINER_SIZE-28-length-1`, where the left
side is a 32-bit and the right side a 64-bit unsigned number. -/
def containerFull (c : Container) (length : ℕ) : Bool :=
  ((defaultContainerSize - 28 - length - 1 : ℤ) % 2 ^ 64).toNat <
    (32 + c.meta_table.size * 28 + c.data_size) % 2 ^ 32

/-- The chunk behind the others, followed by a tab. -/
def placeChunk (c : Container) (chunk : Chunk) : Container :=
  { c with
    data_buffer := writeAt (writeAt c.data_buffer c.data_size (chunk.data.take chunk.length))
      (c.data_size + chunk.length) [9]
    meta_table := c.meta_table.insert chunk.hash ⟨c.data_size, chunk.length, chunk.hash⟩
    data_size := c.data_size + chunk.length + 1
    chunk_num := c.chunk_num + 1 }

/-- `AppendChunkToContainer` -/
def appendChunkToContainer (c : Container) (chunk : Chunk) : Bool × Container :=
  if containerFull c chunk.length then (false, c) else (true, placeChunk c chunk)

/-- `ReadChunkFromContainer`; `some none` for `chunk->data == NULL`, and `none` without an entry: the
`%s` and the `%d` of the error message get no arguments, so that the process dies in `vsprintf`. -/
def readChunkFromContainer (c : Container) (chunk : Chunk) : Option (Option Chunk) :=
  match c.meta_table.lookup chunk.hash with
  | none => none
  | some addr =>
    if addr.length < 0 ∨ (c.data_size : ℤ) < addr.offset ∨ addr.offset < 0 then some none
    else if c.data_buffer.getD (addr.offset + addr.length).toNat 0 ≠ 9 then some none
    else
      some (some { chunk with
        length := addr.length.toNat
        data := readAt c.data_buffer addr.offset.toNat addr.length.toNat })

/-- `container_valid` -/
def containerValid : Bytes := leBytes 4 0xf5f5e4e4

def ChunkAddr.bytes (a : ChunkAddr) : Bytes :=
  intBytes 4 a.offset ++ intBytes 4 a.length ++ a.hash.toList

def chunkAddrOf (b : Bytes) : ChunkAddr :=
  ⟨intOf (readAt b 0 4), intOf (readAt b 4 4), fixed 20 (readAt b 8 20)⟩

/-- What `WriteContainer` passes to `container_save`. -/
def containerBytes (c : Container) : Bytes :=
  containerValid ++ leBytes 4 c.chunk_num ++ leBytes 4 c.data_size ++
    c.meta_table.walk.flatMap (fun p => p.2.bytes) ++ readAt c.data_buffer 0 c.data_size

/-- `WriteContainer` -/
def writeContainer (d : Disk) (c : Container) : Disk :=
  d.write (.container (cstr c.name) (containerBytes c))

/-- `ReadContainer` into a container: whether it succeeds, and the container.
The name is set in any case. -/
def readContainer (d : Disk) (name : Chunkaddress) (c : Container) : Bool × Container :=
  let c := { c with name := fixed 64 (cstr name) }
  match d.files.tmp (cstr name) with
  | none => (false, c)
  | some file =>
    let buffer := readAt file 0 defaultContainerSize
    if readAt buffer 0 4 = containerValid then
      let chunk_num := (intOf (readAt buffer 4 4)).toNat
      let data_size := (intOf (readAt buffer 8 4)).toNat
      let addrs := readRecords chunkAddrOf 28 buffer chunk_num 12
      (true,
        { c with
          chunk_num := chunk_num
          data_size := data_size
          meta_table := addrs.foldl (fun t a => t.insert a.hash a) c.meta_table
          data_buffer := writeAt c.data_buffer 0 (readAt buffer (12 + 28 * chunk_num) data_size) })
    else (false, c)

end TCBackup.Client
