import TCBackup.Bnet
import TCBackup.Server.Index
import TCBackup.Server.Recipe
import TCBackup.UpdateAttr

/-!
# Backup sessions of the server (`server/src/backup.c`, `pipeline_backup.c`)

What the two backup drivers do with one file: look its hash up, tell the client,
and receive the `UPDATEATTR` command and the recipe.

## Main definitions

- `fileDedupMark`, `sendChunkInfo` — the answer to a file hash
- `scanAttr`, `takeRecipe` — the pipelined driver's receive steps
- `recvDeplicateChunk` — the plain driver's receive loop
-/

namespace TCBackup.Server

open ByteFile

/-- What the workers of the server share. -/
structure Shared where
  mem_index : HTable ℕ
  volume : Volume

/-- `sprintf(buf, "%c%c", SUCCESS, is_new)` up to its first NUL: `NEW_FILE` is 0. -/
def dedupResult : FileStatus → Bytes
  | .dedupFile => [1, 1]
  | _ => [1]

/-- `file_dedup_mark`: its result, the marked recipe and the message it sends.
Without a readable recipe nothing is sent. `none` when it waits for
`rv->mutex` for ever. -/
def fileDedupMark (opened : Bool) (rp : Recipe) (s : Shared) :
    Option (Bool × Recipe × List Bytes × Shared) :=
  match indexLookup s.mem_index rp.file_hash with
  | (none, mem_index) =>
    some (true, { rp with is_new := .newFile }, [dedupResult .newFile],
      { s with mem_index := mem_index })
  | (some offset, mem_index) =>
    match readRecipeFromVol opened offset { rp with is_new := .dedupFile } s.volume with
    | none => none
    | some (none, volume) =>
      some (false, { rp with is_new := .dedupFile }, [], ⟨mem_index, volume⟩)
    | some (some rp, volume) => some (true, rp, [dedupResult .dedupFile], ⟨mem_index, volume⟩)

/-- `send_chunk_info`: the count as `int64_t`, then chunk by chunk. -/
def sendChunkInfo (rp : Recipe) : List Bytes :=
  intBytes 8 rp.chunknum :: rp.chunks.map FingerChunk.bytes

/-- The messages that answer a file hash. -/
def dedupMessages (marked : Bool × Recipe × List Bytes × Shared) : List Bytes :=
  let (_, rp, msgs, _) := marked
  if rp.is_new = .dedupFile then msgs ++ sendChunkInfo rp else msgs

/-- The locals of `update_recipe_module` that live from file to file. -/
structure Locals where
  chunknum : ℤ
  last_chunknum : ℤ
  buf : Bytes

def Locals.init : Locals := ⟨0, -1, []⟩

/-- What `%d` stores of a number: `strtol` ends at the bounds of a `long`, and the `int` gets its
low half. -/
def storedInt (x : ℤ) : ℤ := int32 (max (-2 ^ 63) (min x (2 ^ 63 - 1)))

theorem storedInt_eq {x : ℤ} (hlow : -2 ^ 31 ≤ x) (hhigh : x < 2 ^ 31) : storedInt x = x := by
  rw [storedInt, min_eq_left (by omega), max_eq_right (by omega), int32_eq hlow hhigh]

/-- `%s` into `filename`: what does not fit goes into `file_hash` behind it. -/
def Recipe.scanName (rp : Recipe) (filename : Bytes) : Recipe :=
  { rp with
    filename := filename
    file_hash := if filename.length < 256 then rp.file_hash
      else fixed 20 (writeAt rp.file_hash.toList 0 ((filename ++ [0]).drop 256)) }

theorem Recipe.scanName_eq (rp : Recipe) {filename : Bytes} (h : filename.length < 256) :
    rp.scanName filename = { rp with filename := filename } := by
  rw [Recipe.scanName, if_pos h]

/-- Receive and scan the `UPDATEATTR` command. A conversion that fails leaves its
variable as it was. -/
def scanAttr (d : Delivery) (l : Locals) (rp : Recipe) : Bool × Locals × Recipe :=
  match scanUpdateAttr (cstring (d.into [])) with
  | (chunknum, filename) =>
    (chunknum.isSome && filename.isSome,
      { l with chunknum := (chunknum.map storedInt).getD l.chunknum },
      (filename.map rp.scanName).getD rp)

theorem scanAttr_recipe (d : Delivery) (l : Locals) (rp : Recipe) :
    (scanAttr d l rp).2.2 = ((scanUpdateAttr (cstring (d.into []))).2.map rp.scanName).getD rp := rfl

/-- Receive the recipe of a new file into `buf` and append its chunks. An error or
a wrong hash only shows in the result. -/
def takeRecipe (d : Delivery) (result : Bool) (l : Locals) (rp : Recipe) :
    Bool × Locals × Recipe :=
  let buf := d.into l.buf
  let ok := result && d.ret != 0 && decide (fixed 20 (readAt buf 0 20) = rp.file_hash)
  (ok, { l with buf := buf, last_chunknum := max l.last_chunknum l.chunknum },
    (readRecords fingerChunkOf 84 buf l.chunknum.toNat 20).foldl recipeAppendFingerchunk rp)

/-- `recv_deplicate_chunk` of the plain driver: `n` messages, `next i` the `i`-th
one, each into a cleared buffer. A return value of 0 ends the loop. -/
def recvDeplicateChunk (next : ℕ → Delivery) : ℕ → ℕ → Recipe → Bool × Recipe
  | _, 0, rp => (true, rp)
  | i, n + 1, rp =>
    if (next i).ret = 0 then (false, rp)
    else
      recvDeplicateChunk next (i + 1) n
        (recipeAppendFingerchunk rp (fingerChunkOf ((next i).into [])))

end TCBackup.Server
