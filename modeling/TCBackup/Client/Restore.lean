import TCBackup.Bnet
import TCBackup.Client.PipelineBackup

/-!
# The file list of a restore (`client/src/restore.c`)

The client receives the list of files into a doubly linked list, which it fills at the
head and drains at the tail, and then the chunks of one file after the other. Complete
files go to `file_pool`.

## Main definitions

- `dlistInsert`, `dlistDeleteTail` — the list, head first
- `recvFileList`, `recvDeplicateChunk` — what is received
- `getFiles` — the files that are pushed to `file_pool`
-/

namespace TCBackup.Client

open ByteFile

abbrev RestoreFile := FileInfo FingerChunk

/-- Why a call has no value: it returned `FAILURE`, or it never returns, be it that it
waits for a message for ever or that it left a buffer. -/
inductive Stop
  | failure
  | stuck
  deriving DecidableEq

/-- `bnet_recv`. A closed connection is an error. -/
def recv : Incoming → Except Stop (Delivery × Incoming)
  | ⟨d :: ds, closed⟩ => .ok (d, ⟨ds, closed⟩)
  | ⟨[], true⟩ => .ok (.error, ⟨[], true⟩)
  | ⟨[], false⟩ => .error .stuck

/-- `bnet_recv` into a buffer of `size` bytes. -/
def recvInto (size : ℕ) (conn : Incoming) : Except Stop (Delivery × Incoming) :=
  match recv conn with
  | .error e => .error e
  | .ok (d, conn) => if d.stored ≤ size then .ok (d, conn) else .error .stuck

variable {α : Type*}

/-- `dlist_insert` inserts at the head. -/
def dlistInsert (plist : List α) (item : α) : List α := item :: plist

/-- `dlist_delete_tail`: the last element and the others. -/
def dlistDeleteTail (plist : List α) : Option (α × List α) :=
  plist.getLast?.map fun item => (item, plist.dropLast)

/-- The loop of `recv_file_list` with `i` files to go, from position `p` on. What was not
received is undefined, and the path has to end inside `file_path`. -/
def decodeFiles (buf : Bytes) : ℕ → ℕ → List RestoreFile → Option (List RestoreFile)
  | 0, _, filelist => some filelist
  | i + 1, p, filelist =>
    let fileinfo_len := intOf (readAt buf p 4)
    if p + 4 ≤ buf.length ∧ 20 ≤ fileinfo_len ∧ fileinfo_len < 20 + 256 ∧
        p + 4 + fileinfo_len.toNat ≤ buf.length then
      decodeFiles buf i (p + 4 + fileinfo_len.toNat) (dlistInsert filelist
        { (fileNew : RestoreFile) with
          file_hash := fixed 20 (readAt buf (p + 4) 20)
          file_path := cstring (readAt buf (p + 24) (fileinfo_len.toNat - 20)) })
    else none

/-- `recv_file_list` -/
def recvFileList (conn : Incoming) : Except Stop (List RestoreFile × Incoming) :=
  match recvInto 256 conn with
  | .error e => .error e
  | .ok (d, conn) =>
    if d.ret ≤ 0 then .error .failure
    else
      let file_num := intOf (readAt (d.into (List.replicate 256 0)) 0 4)
      match recvInto (listSize file_num) conn with
      | .error e => .error e
      | .ok (d, conn) =>
        if d.ret ≤ 0 then .error .failure
        else
          match decodeFiles d.bytes file_num.toNat 0 [] with
          | none => .error .stuck
          | some filelist => .ok (filelist, conn)

/-- The loop of `recv_deplicate_chunk` with `n` chunks to go. A return value of 0 ends it,
an error does not. -/
def recvChunks : ℕ → RestoreFile → Incoming →
    Except Stop (Bool × RestoreFile × Incoming)
  | 0, fileinfo, conn => .ok (true, fileinfo, conn)
  | n + 1, fileinfo, conn =>
    match recvInto 85 conn with
    | .error e => .error e
    | .ok (d, conn) =>
      if d.ret = 0 then .ok (false, fileinfo, conn)
      else recvChunks n (fileAppendFingerchunk fileinfo (receivedChunk (d.into []))) conn

/-- Room for the count: the server sends eight bytes, and a NUL is stored behind them. The variable
keeps four of them. What the others overwrite is taken to be of no use; a longer message is not. -/
def countRoom : ℕ := 9

/-- `recv_deplicate_chunk`; `chunknum` is what its variable holds before. -/
def recvDeplicateChunk (chunknum : ℤ) (fileinfo : RestoreFile) (conn : Incoming) :
    Except Stop (Bool × RestoreFile × Incoming) :=
  match recvInto countRoom conn with
  | .error e => .error e
  | .ok (d, conn) =>
    if d.ret = 0 then .ok (false, fileinfo, conn)
    else recvChunks (chunkCount (d.into (intBytes 4 chunknum))) fileinfo conn

/-- The loop of `get_files` with `n` files to go: what is pushed to `file_pool`. The result
of `recv_deplicate_chunk` is not looked at. -/
def pushFiles (chunknum : ℕ → ℤ) : ℕ → List RestoreFile → Incoming →
    Except Stop (List RestoreFile)
  | 0, _, _ => .ok []
  | n + 1, filelist, conn =>
    match dlistDeleteTail filelist with
    | none => .error .stuck
    | some (fileinfo, filelist) =>
      match recvDeplicateChunk (chunknum n) fileinfo conn with
      | .error e => .error e
      | .ok (_, fileinfo, conn) =>
        match pushFiles chunknum n filelist conn with
        | .error e => .error e
        | .ok pool => .ok (fileinfo :: pool)

/-- `get_job_info` and `get_files`: the files that were pushed to `file_pool`. -/
def getFiles (chunknum : ℕ → ℤ) (conn : Incoming) : Except Stop (List RestoreFile) :=
  match recvFileList conn with
  | .error e => .error e
  | .ok (filelist, conn) => pushFiles chunknum filelist.length filelist conn

end TCBackup.Client
