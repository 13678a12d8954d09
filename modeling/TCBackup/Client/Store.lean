import TCBackup.Client.Container

/-!
# Storing and restoring chunks (`client/src/store.c`)

A backup process fills one container at a time. A restore process keeps a few
containers in a cache that is searched from its front.
-/

namespace TCBackup.Client

open ByteFile

/-- The disk, the names given so far and the open container. -/
structure Store where
  disk : Disk
  names : Names
  container : Container

variable (clock : ℕ → ℤ)

/-- `store_init` -/
def storeInit (disk : Disk) (names : Names) : Store :=
  let (container, names) := initContainer clock names
  ⟨disk, names, container⟩

/-- `store_chunk`: the address of the chunk is the name of its container. A chunk
that does not fit goes into a new one. -/
def storeChunk (s : Store) (chunk : Chunk) : Chunk × Store :=
  match appendChunkToContainer s.container chunk with
  | (true, container) => ({ chunk with address := container.name }, { s with container := container })
  | (false, container) =>
    let disk := writeContainer s.disk container
    let (container, names) := initContainer clock s.names
    let (_, container) := appendChunkToContainer container chunk
    ({ chunk with address := container.name }, ⟨disk, names, container⟩)

/-- `store_chunk` when the open container has room. -/
theorem storeChunk_room {s : Store} {chunk : Chunk}
    (h : containerFull s.container chunk.length = false) :
    storeChunk clock s chunk = ({ chunk with address := s.container.name },
      { s with container := placeChunk s.container chunk }) := by
  simp [storeChunk, appendChunkToContainer, h, placeChunk]

/-- `store_chunk` when the open container is full. -/
theorem storeChunk_full {s : Store} {chunk : Chunk}
    (h : containerFull s.container chunk.length = true) :
    storeChunk clock s chunk =
      ({ chunk with
          address := (appendChunkToContainer (initContainer clock s.names).1 chunk).2.name },
        ⟨writeContainer s.disk s.container, (initContainer clock s.names).2,
          (appendChunkToContainer (initContainer clock s.names).1 chunk).2⟩) := by
  simp [storeChunk, appendChunkToContainer, h]

/-- `store_destory`: an empty container is not written. -/
def storeDestory (s : Store) : Disk :=
  if 0 < s.container.chunk_num then writeContainer s.disk s.container else s.disk

/-- `got_containers` and `restore_cache`, the front first. -/
structure Restore where
  names : Names
  got_containers : HTable 64 Unit
  restore_cache : List Container

/-- `restore_cache_size` -/
def restoreCacheSize : ℕ := 4

/-- `init_cache` -/
def initCache : ℕ → Names → List Container × Names
  | 0, n => ([], n)
  | k + 1, n =>
    let (container, n) := initContainer clock n
    let (cache, n) := initCache k n
    (container :: cache, n)

/-- `restore_init` -/
def restoreInit (names : Names) : Restore :=
  let (cache, names) := initCache clock restoreCacheSize names
  ⟨names, htableInit 3200, cache⟩

/-- `strcmp` finds the names equal. -/
def sameName (a b : Chunkaddress) : Bool := cstr a = cstr b

/-- Unlink the first container with the name. -/
def unlinkName (name : Chunkaddress) : List Container → Option (Container × List Container)
  | [] => none
  | c :: cs =>
    if sameName c.name name then some (c, cs)
    else (unlinkName name cs).map fun p => (p.1, c :: p.2)

/-- `search_cache`: whether it is a hit, the new front and the rest. A hit moves
to the front, a miss puts a fresh container there in place of the last one. -/
def searchCache (cache : List Container) (name : Chunkaddress) (n : Names) :
    Bool × Container × List Container × Names :=
  match unlinkName name cache with
  | some (container, rest) => (true, container, rest, n)
  | none =>
    let (container, n) := initContainer clock n
    (false, container, cache.dropLast, n)

/-- `restore_chunk`; `some none` for `FAILURE`, and `none` where it takes the process with it. -/
def restoreChunk (d : Disk) (r : Restore) (chunk : Chunk) : Option (Option Chunk) × Restore :=
  let got := match r.got_containers.lookup chunk.address with
    | some _ => r.got_containers
    | none => r.got_containers.insert chunk.address ()
  match searchCache clock r.restore_cache chunk.address r.names with
  | (true, front, rest, names) =>
    (readChunkFromContainer front chunk, ⟨names, got, front :: rest⟩)
  | (false, front, rest, names) =>
    match readContainer d chunk.address front with
    | (false, front) => (some none, ⟨names, got, front :: rest⟩)
    | (true, front) => (readChunkFromContainer front chunk, ⟨names, got, front :: rest⟩)

end TCBackup.Client
