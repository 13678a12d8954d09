import TCBackup.Client.Chunking
import TCBackup.Client.Store
import TCBackup.Client.ExtremeBinning
import TCBackup.Lib.Handoff

/-!
# Deduplication of chunks (`client/src/chunkdedup.c`)

The chunk dedup thread marks the chunks of a file as new or duplicate, stores the new ones
and keeps the bin up to date. Other threads see the chunks of a file once it is pushed to
`chunk_dedup_queue`, so every access to a chunk is recorded.

## Main definitions

- `Work` — what the thread works on: chunks, bin and store
- `writeChunkToCloud` — store the bytes of a chunk
- `markNewFile`, `markDedupFile` — `mark_deplicate_chunk` without rewriting
-/

namespace TCBackup.Client

open ByteFile Handoff

/-- `REWRITE` -/
inductive Rewrite
  | noRewrite
  | cflRewrite
  | perfectRewrite
  | cappingRewrite
  deriving DecidableEq

/-- The options of the client. A comparison of floating-point numbers is a function of the
integers that the numbers are computed from: `cflLow` is `CFL < LWM` for a quotient,
`sparse` compares with `default_container_reuse` and `seldom` with
`segment_usage_threshold`. -/
structure Settings where
  rewrite : Rewrite
  cflLow : ℕ → ℕ → Bool
  sparse : ℤ → Bool
  seldom : ℤ → Bool
  buffer_capacity : ℤ
  max_refer_count : ℕ

/-- Addition in a 32-bit integer. -/
def add32 (a b : ℤ) : ℤ := (a + b).bmod (2 ^ 32)

/-- What the thread does with chunks: they are numbered in the order of allocation, and a
file names its chunks by number. -/
abbrev Accesses := List (Access ℕ FingerChunk (FileInfo ℕ) Chunk)

/-- The accesses to chunks so far, the table of the bin, and the store. -/
structure Work where
  log : Accesses
  fingers : HTable 20 Chunkaddress
  store : Store

/-- Memory in which no chunk is allocated. -/
def noChunks : ℕ → FingerChunk := fun _ => fingerchunkNew

/-- The chunks as they are now. -/
def Work.chunk (w : Work) (r : ℕ) : FingerChunk := after noChunks w.log r

def Work.set (w : Work) (r : ℕ) (fc : FingerChunk) : Work := { w with log := w.log ++ [.set r fc] }

/-- `sync_queue_push(chunk_dedup_queue, fileinfo)` -/
def Work.push (w : Work) (fileinfo : FileInfo ℕ) : Work :=
  { w with log := w.log ++ [.publish fileinfo] }

/-- `pthread_mutex_lock(&fc->mutex)` -/
def Work.lock (w : Work) (r : ℕ) : Work := w.set r { w.chunk r with mutex := true }

/-- `pthread_mutex_unlock(&fc->mutex)` -/
def Work.unlock (w : Work) (r : ℕ) : Work := w.set r { w.chunk r with mutex := false }

/-- `fc->is_new = NEW_CHUNK` -/
def Work.markNew (w : Work) (r : ℕ) : Work := w.set r { w.chunk r with is_new := .newChunk }

/-- `fc->is_new = DEDUP_CHUNK`, with the address that the bin has. -/
def Work.markDedup (w : Work) (r : ℕ) (address : Chunkaddress) : Work :=
  w.set r { w.chunk r with is_new := .dedupChunk, chunkaddress := address }

/-- What the bin has for the chunk. -/
def Work.found (w : Work) (r : ℕ) : Option Chunkaddress := w.fingers.lookup (w.chunk r).chunk_hash

/-- A new `cmeta` for the chunk. -/
def Work.insertMeta (w : Work) (r : ℕ) : Work :=
  { w with fingers := w.fingers.insert (w.chunk r).chunk_hash (w.chunk r).chunkaddress }

/-- `memcpy(cmeta->address, fc->chunkaddress, CHUNK_ADDRESS_LENGTH)` -/
def Work.updateMeta (w : Work) (r : ℕ) : Work :=
  { w with fingers := w.fingers.set (w.chunk r).chunk_hash (w.chunk r).chunkaddress }

/-- What `write_chunk_to_cloud` passes to `store_chunk`, for a file with these bytes. -/
def chunkFrom (file : Bytes) (off_set : ℕ) (fc : FingerChunk) : Chunk :=
  ⟨fc.chunklen, fc.chunk_hash, noAddress, readAt file off_set fc.chunklen⟩

variable (clock : ℕ → ℤ)

/-- `write_chunk_to_cloud` -/
def writeChunkToCloud (file : Bytes) (off_set : ℕ) (r : ℕ) (w : Work) : Work :=
  let chunk := chunkFrom file off_set (w.chunk r)
  let stored := storeChunk clock w.store chunk
  { w with
    log := w.log ++ [.act r chunk, .set r { w.chunk r with chunkaddress := stored.1.address }]
    store := stored.2 }

/-- The chunk goes to the store and into the bin. -/
def storeNew (file : Bytes) (off_set : ℕ) (r : ℕ) (w : Work) : Work :=
  (writeChunkToCloud clock file off_set r w).insertMeta r

/-- A duplicate goes to the store once more, and the bin gets its new address. -/
def rewriteDup (file : Bytes) (r : ℕ) (w : Work) : Work :=
  ((writeChunkToCloud clock file (w.chunk r).offset r w).markNew r).updateMeta r

section Accesses

variable (w : Work) (r : ℕ) (fc : FingerChunk) (file : Bytes) (off_set : ℕ)

theorem chunk_set : (w.set r fc).chunk = Function.update w.chunk r fc := by
  funext r'
  rw [Work.chunk, Work.set, after_append, after_singleton]
  rfl

@[simp] theorem chunk_set_self : (w.set r fc).chunk r = fc := by
  rw [chunk_set, Function.update_self]

theorem chunk_set_of_ne {q : ℕ} (hq : q ≠ r) : (w.set r fc).chunk q = w.chunk q := by
  rw [chunk_set, Function.update_of_ne hq]

@[simp] theorem set_log : (w.set r fc).log = w.log ++ [.set r fc] := rfl

@[simp] theorem set_fingers : (w.set r fc).fingers = w.fingers := rfl

@[simp] theorem set_store : (w.set r fc).store = w.store := rfl

@[simp] theorem set_acts : acts (w.set r fc).log = acts w.log := by
  rw [set_log, acts_append, acts_set, List.append_nil]

@[simp] theorem insertMeta_chunk : (w.insertMeta r).chunk = w.chunk := rfl

@[simp] theorem updateMeta_chunk : (w.updateMeta r).chunk = w.chunk := rfl

@[simp] theorem insertMeta_log : (w.insertMeta r).log = w.log := rfl

@[simp] theorem updateMeta_log : (w.updateMeta r).log = w.log := rfl

@[simp] theorem insertMeta_store : (w.insertMeta r).store = w.store := rfl

@[simp] theorem updateMeta_store : (w.updateMeta r).store = w.store := rfl

/-- The address that the store gives a chunk. -/
def Work.newAddress (w : Work) (chunk : Chunk) : Chunkaddress :=
  (storeChunk clock w.store chunk).1.address

@[simp] theorem write_log :
    (writeChunkToCloud clock file off_set r w).log =
      w.log ++ [.act r (chunkFrom file off_set (w.chunk r)),
        .set r { w.chunk r with
          chunkaddress := w.newAddress clock (chunkFrom file off_set (w.chunk r)) }] := rfl

@[simp] theorem write_fingers : (writeChunkToCloud clock file off_set r w).fingers = w.fingers := rfl

@[simp] theorem write_store :
    (writeChunkToCloud clock file off_set r w).store =
      (storeChunk clock w.store (chunkFrom file off_set (w.chunk r))).2 := rfl

@[simp] theorem write_chunk_self :
    (writeChunkToCloud clock file off_set r w).chunk r =
      { w.chunk r with
        chunkaddress := w.newAddress clock (chunkFrom file off_set (w.chunk r)) } := by
  rw [Work.chunk, write_log, after_append]
  simp [after, apply]

theorem write_chunk_of_ne {q : ℕ} (hq : q ≠ r) :
    (writeChunkToCloud clock file off_set r w).chunk q = w.chunk q := by
  rw [Work.chunk, write_log, after_append]
  exact Function.update_of_ne hq _ _

theorem write_acts :
    acts (writeChunkToCloud clock file off_set r w).log =
      acts w.log ++ [(r, chunkFrom file off_set (w.chunk r))] := by
  rw [write_log, acts_append]
  rfl

end Accesses

/-- A chunk of a new file at `size`. -/
def markChunk (file : Bytes) (size : ℕ) (r : ℕ) (w : Work) : Work :=
  match w.found r with
  | some address => w.markDedup r address
  | none => storeNew clock file size r (w.markNew r)

/-- The loop of `mark_deplicate_chunk` over a new file; `size` is the length of the chunks
in front. -/
def markNewFile (file : Bytes) : ℕ → List ℕ → Work → Work
  | _, [], w => w
  | size, r :: rs, w =>
    markNewFile file (size + (w.chunk r).chunklen) rs (markChunk clock file size r w)

/-- The loop over a duplicate file, whose chunks have addresses already. -/
def markDedupFile : List ℕ → Work → Work
  | [], w => w
  | r :: rs, w =>
    markDedupFile rs
      (match w.found r with
        | some _ => w
        | none => w.insertMeta r)

end TCBackup.Client
