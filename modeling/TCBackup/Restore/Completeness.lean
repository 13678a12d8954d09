import TCBackup.Client.ContainerNames
import TCBackup.Client.RestoredFiles
import TCBackup.Restore.Pairing

/-!
# What a successful restore has written

`restore_client` returns `SUCCESS` when the list of files and all recipes have come to an
end in some way: an unknown hash and an unreadable recipe look like an empty file, and the
thread that writes the files has no way to tell that it gave up.

## Main definitions

- `Run` — a restore, with everything that may fail
- `Complete` — every file is written as its recipe describes it
- `Truthful` — `SUCCESS` is returned for complete restores only
- `Run.received` — the files as they are read off the messages that arrive
- `Dies`, `Clean` — the process does not live to return, or nothing goes wrong with any file
- `Aborted`, `Delivered` — restores without a list of files, and with all messages
-/

namespace TCBackup.Restore.Completeness

open ByteFile Server Client Pairing

/-- The connection: it works, or it breaks after `n` messages, perhaps within the next, or
`bnet_recv` meets something else altogether. -/
inductive Network
  | reliable
  | broken (n : ℕ) (cut : Option ℕ)
  | disturbed (conn : Incoming)

/-- What still arrives of a message. -/
def arrivingPart : Option ℕ → Option Delivery → List Delivery
  | some k, some (.message announced bytes) => [.message announced (bytes.take k)]
  | _, _ => []

def Network.deliver : Network → Incoming → Incoming
  | .reliable, conn => conn
  | .broken n cut, conn =>
    ⟨conn.arriving.take n ++ arrivingPart cut conn.arriving[n]?, true⟩
  | .disturbed conn, _ => conn

/-- A restore: the files of the job, the tables of the server, whether it can open the
recipe volume, the connection, the client, and what the files hold when they are opened. -/
structure Run where
  rows : List FileRow
  server : Shared
  opened : ℕ → Bool
  network : Network
  client : RestoreEnv
  old : ℕ → Bytes

/-- What the server sends. -/
def Run.sent (run : Run) : Incoming := restore run.opened run.rows run.server

/-- `restore_client` -/
def Run.result (run : Run) : Except Stop (List Output) :=
  restoreClient run.client (run.network.deliver run.sent)

-- ════════════════════════════════════════════════════════════════════════
-- Complete restores
-- ════════════════════════════════════════════════════════════════════════

/-- The server finds the hash. -/
def Known (s : Shared) (hash : Fingerprint) : Prop := ∃ offset, s.mem_index.find hash = some offset

/-- The `i`-th file is under the restore path and has the chunks of its stored recipe, and nothing
else: `open` does not truncate. -/
structure Written (sha1 : Bytes → Fingerprint) (run : Run) (i : ℕ) (out : Output) (row : FileRow) :
    Prop where
  known : Known run.server row.HashCode
  path : out.path = trimSlash run.client.restore_path ++ row.FilePath
  data : List.Forall₂ (fun data fc => sha1 data = fc.chunk_hash) out.data
    (storedRecipe run.server row.HashCode)
  whole : writeAll (run.old i) 0 out.data = out.data.flatten

/-- Every file of the job is written, from the `i`-th on. -/
def Complete (sha1 : Bytes → Fingerprint) (run : Run) : ℕ → List Output → List FileRow → Prop
  | _, _, [] => True
  | _, [], _ :: _ => False
  | i, out :: written, row :: rows => Written sha1 run i out row ∧ Complete sha1 run (i + 1) written rows

/-- The files as they are read off the messages that arrive, if all are. -/
def Run.received (run : Run) : Except Stop (List RestoreFile) :=
  if run.client.thread = false then .error .failure
  else getFiles run.client.chunknum (run.network.deliver run.sent)

/-- The bin in which all chunks are looked up, if `REWRITE` is on: the one that the thread
loads for its first file. -/
def Run.bin (run : Run) (pool : List RestoreFile) : Option Bin :=
  pool.head?.bind fun f =>
    (loadBin (extremeBinningInit run.client.disk).1 run.client.store zeroFinger f.file_hash
      f.chunknum).map Prod.fst

/-- Where the thread finds addresses. -/
def Run.source (run : Run) (pool : List RestoreFile) : Option Bin :=
  if run.client.rewrite then run.bin pool else none

/-- The address of a chunk. -/
def addressIn : Option Bin → Client.FingerChunk → Option Chunkaddress
  | none, fc => some fc.chunkaddress
  | some bin, fc => bin.fingers.lookup fc.chunk_hash

/-- The chunks with their addresses, unless one has none. -/
def resolve : Option Bin → List Client.FingerChunk → Option (List Client.FingerChunk)
  | none, fcs => some fcs
  | some bin, fcs => binAddresses bin.fingers fcs

/-- `create_file` and `open` succeed for the `i`-th file. -/
def Run.opens (run : Run) (i : ℕ) : Prop :=
  (run.client.io i).created = true ∧ (run.client.io i).opened = true

/-- The `i`-th file is gone through to its end: its path fits, and every chunk has an address, can be
read there and can be written. -/
def Passes (run : Run) (source : Option Bin) (i : ℕ) (f : RestoreFile) (data : List Bytes) : Prop :=
  (trimSlash run.client.restore_path ++ f.file_path).length < 256 ∧ run.opens i ∧
    ∃ resolved, resolve source f.chunks = some resolved ∧
      readAll run.client.store (run.client.io i).wrote 0 resolved = some data

/-- Nothing goes wrong with the `i`-th file: what was received of it is its path and chunks of its
stored recipe, and no longer file was there before. -/
structure FileClean (sha1 : Bytes → Fingerprint) (run : Run) (source : Option Bin) (i : ℕ)
    (f : RestoreFile) (row : FileRow) : Prop where
  known : Known run.server row.HashCode
  path : f.file_path = row.FilePath
  chunks : ∃ data, Passes run source i f data ∧
    List.Forall₂ (fun data fc => sha1 data = fc.chunk_hash) data (storedRecipe run.server row.HashCode) ∧
      (run.old i).length ≤ data.flatten.length

/-- Nothing goes wrong from the `i`-th file on. -/
def Clean (sha1 : Bytes → Fingerprint) (run : Run) (source : Option Bin) :
    ℕ → List RestoreFile → List FileRow → Prop
  | _, _, [] => True
  | _, [], _ :: _ => False
  | i, f :: files, row :: rows =>
    FileClean sha1 run source i f row ∧ Clean sha1 run source (i + 1) files rows

/-- The addresses that chunks are restored from. -/
def Run.wanted (run : Run) (pool : List RestoreFile) (address : Chunkaddress) : Prop :=
  ∃ f ∈ pool, ∃ fc ∈ f.chunks, addressIn (run.source pool) fc = some address

/-- No container that is only made to fill the cache has the name of one that is wanted. -/
def Run.Apart (run : Run) : Prop :=
  ∀ pool, run.received = .ok pool → ∀ name, run.client.names.later run.client.clock name →
    ∀ address, run.wanted pool address → cstr name ≠ cstr address

/-- What arrives is the front of what was sent. -/
def Network.orderly : Network → Prop
  | .disturbed _ => False
  | _ => True

/-- From the `i`-th file on, the server looks up a known hash while `rv->mutex` is held, as it
is once the recipe volume could not be opened. Then it waits for ever. -/
def Waits (s : Shared) (opened : ℕ → Bool) : Bool → ℕ → List FileRow → Prop
  | _, _, [] => False
  | held, i, row :: rows =>
    match s.mem_index.find row.HashCode with
    | none => Waits s opened held (i + 1) rows
    | some _ => held = true ∨ Waits s opened (!opened i) (i + 1) rows

variable {sha1 : Bytes → Fingerprint} {run : Run} {source : Option Bin} {i : ℕ} {f : RestoreFile}
  {pool files : List RestoreFile} {w : Worker}

-- ════════════════════════════════════════════════════════════════════════
-- Chunks
-- ════════════════════════════════════════════════════════════════════════

/-- The thread looks addresses of the file up in the bin `source`, and keeps that. -/
def Serves (d : Disk) (source : Option Bin) (exbin : Option ExtremeBinning) (f : RestoreFile) :
    Prop :=
  match source, exbin with
  | none, none => True
  | some bin, some ex => ∃ ex', loadBin ex d zeroFinger f.file_hash f.chunknum = some (bin, ex') ∧
      ex'.bin_cache.lookup zeroFinger = some bin
  | _, _ => False

/-- The thread can go on with a file. -/
structure Ready (run : Run) (pool : List RestoreFile) (w : Worker) (f : RestoreFile) : Prop where
  cached : Cached run.client.store (run.wanted pool) w.restore.restore_cache
  serves : Serves run.client.store (run.source pool) w.exbin f

/-- A file that passes has one content. -/
theorem Passes.unique {data data' : List Bytes} (h : Passes run source i f data)
    (h' : Passes run source i f data') : data = data' := by
  obtain ⟨-, -, resolved, hres, hread⟩ := h
  obtain ⟨-, -, resolved', hres', hread'⟩ := h'
  obtain rfl := Option.some.inj (hres.symm.trans hres')
  exact Option.some.inj (hread.symm.trans hread')

end TCBackup.Restore.Completeness
