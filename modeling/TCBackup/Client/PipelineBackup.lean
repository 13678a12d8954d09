import TCBackup.Client.Recipe
import TCBackup.UpdateAttr

/-!
# Messages of the pipelined client (`client/src/pipeline_backup.c`)

How `chunk_dedup_module` reads the answers of the server, and what
`update_recipe_module` sends.
-/

namespace TCBackup.Client

open ByteFile

/-- The `success` and `newfile` bytes of an answer: `none` for `FAILURE`. A value
of `newfile` that is neither leaves `is_new` unset. -/
def dedupAnswer (msg : Bytes) : Option FileStatus :=
  if msg.getD 0 0 = 0 then none
  else if msg.getD 1 0 = 0 then some .newFile
  else if msg.getD 1 0 = 1 then some .dedupFile
  else some .unset

/-- The `chunknum` of `recv_deplicate_chunk`: an `int` received as `int64_t`. -/
def chunkCount (msg : Bytes) : ℕ := (intOf (readAt msg 0 4)).toNat

/-- A chunk that `recv_deplicate_chunk` appends. -/
def receivedChunk (msg : Bytes) : FingerChunk :=
  { fingerchunkNew with
    chunk_hash := fixed 20 (readAt msg 0 20)
    chunkaddress := fixed 64 (readAt msg 20 64) }

/-- The recipe message of a new file: its hash, then hash and address of every
chunk. -/
def recipeMsg (fileinfo : FileInfo FingerChunk) : Bytes :=
  fileinfo.file_hash.toList ++
    fileinfo.chunks.flatMap fun fc => fc.chunk_hash.toList ++ fc.chunkaddress.toList

/-- The `UPDATEATTR` message of a file. -/
def attrMsg (fileinfo : FileInfo FingerChunk) : Bytes :=
  updateAttrMsg fileinfo.chunknum fileinfo.file_path

end TCBackup.Client
