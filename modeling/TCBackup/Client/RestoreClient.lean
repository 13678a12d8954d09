import TCBackup.Client.ExtremeBinning
import TCBackup.Client.Restore
import TCBackup.Client.RestoreCache

/-!
# Writing the files of a restore (`client/src/restore.c`, `handle.c`)

A second thread takes the files from `file_pool` and writes them. It ends at the first
failure, of which `restore_client` does not learn, unless it takes the process with it.

## Main definitions

- `writeChunks`, `constructOne`, `constructFile` — the thread
- `readAll`, `DiesOn` — what it reads, container file by container file
- `RestoreEnv` — what a restore depends on besides the messages
- `restoreClient` — the files that a successful restore has written
-/

namespace TCBackup.Client

open ByteFile

/-- The system calls for one file: whether `create_file` and `open` succeed, and how many
bytes the `j`-th `write` can store. -/
structure FileIO where
  created : Bool
  opened : Bool
  wrote : ℕ → ℕ

/-- A file that was written to its end, by one `write` for each chunk. -/
structure Output where
  path : Bytes
  data : List Bytes

/-- The thread: its containers, and the bins if chunks are looked up in them. -/
structure Worker where
  restore : Restore
  exbin : Option ExtremeBinning

/-- What becomes of one file. -/
inductive Construction
  | stuck
  | ended
  | written (out : Output) (w : Worker)

/-- The addresses of the chunks in the bin; `none` when one is not there. -/
def binAddresses (fingers : HTable 20 Chunkaddress) : List FingerChunk → Option (List FingerChunk)
  | [] => some []
  | fc :: fcs =>
    (fingers.lookup fc.chunk_hash).bind fun address =>
      (binAddresses fingers fcs).map fun fcs => { fc with chunkaddress := address } :: fcs

section Thread

variable (clock : ℕ → ℤ) (d : Disk)

/-- The loop over the chunks of a file, from the `j`-th on; `some none` after a failure, and `none`
where the process dies. -/
def writeChunks (wrote : ℕ → ℕ) :
    ℕ → List FingerChunk → Restore → Option (Option (List Bytes × Restore))
  | _, [], r => some (some ([], r))
  | j, fc :: fcs, r =>
    match restoreChunk clock d r ⟨0, fc.chunk_hash, fc.chunkaddress, []⟩ with
    | (none, _) => none
    | (some none, _) => some none
    | (some (some chunk), r) =>
      if chunk.data.length ≤ wrote j then
        (writeChunks wrote (j + 1) fcs r).map (Option.map fun p => (chunk.data :: p.1, p.2))
      else some none

/-- A file whose addresses are known. The path has to fit `full_path`. -/
def writeOne (restore_path : Bytes) (io : FileIO) (file_path : Bytes) (chunks : List FingerChunk)
    (w : Worker) : Construction :=
  if 256 ≤ (restore_path ++ file_path).length then .stuck
  else if io.created = false then .ended
  else if io.opened = false then .ended
  else
    match writeChunks clock d io.wrote 0 chunks w.restore with
    | none => .stuck
    | some none => .ended
    | some (some (data, restore)) => .written ⟨restore_path ++ file_path, data⟩ { w with restore := restore }

/-- The loop of `construct_file` for one file. -/
def constructOne (restore_path : Bytes) (io : FileIO) (fileinfo : RestoreFile) (w : Worker) :
    Construction :=
  match w.exbin with
  | none => writeOne clock d restore_path io fileinfo.file_path fileinfo.chunks w
  | some ex =>
    match loadBin ex d zeroFinger fileinfo.file_hash fileinfo.chunknum with
    | none => .stuck
    | some (bin, ex) =>
      match binAddresses bin.fingers fileinfo.chunks with
      | none => .ended
      | some chunks =>
        writeOne clock d restore_path io fileinfo.file_path chunks { w with exbin := some ex }

/-- `construct_file` on what is pushed, from the `i`-th file on: what it writes, or `none`
when it takes the process with it. -/
def constructFile (restore_path : Bytes) (io : ℕ → FileIO) :
    ℕ → List RestoreFile → Worker → Option (List Output)
  | _, [], _ => some []
  | i, fileinfo :: files, w =>
    match constructOne clock d restore_path (io i) fileinfo w with
    | .stuck => none
    | .ended => some []
    | .written out w => (constructFile restore_path io (i + 1) files w).map fun outs => out :: outs

end Thread

/-- What a restore depends on besides the messages: whether `pthread_create` succeeds,
whether `REWRITE` is on, the path, the disk, the system calls, and what `chunknum` holds. -/
structure RestoreEnv where
  thread : Bool
  rewrite : Bool
  restore_path : Bytes
  disk : Disk
  names : Names
  clock : ℕ → ℤ
  io : ℕ → FileIO
  chunknum : ℕ → ℤ

/-- The restore path without a slash at its end. -/
def trimSlash (path : Bytes) : Bytes := if path.getLast? = some 47 then path.dropLast else path

/-- The disk after `ExtremeBinningInit`. -/
def RestoreEnv.store (e : RestoreEnv) : Disk :=
  if e.rewrite then (extremeBinningInit e.disk).2 else e.disk

/-- The thread after `restore_init`. -/
def RestoreEnv.worker (e : RestoreEnv) : Worker where
  restore := restoreInit e.clock e.names
  exbin := if e.rewrite then some (extremeBinningInit e.disk).1 else none

/-- `restore_client` on what arrives: the files that were written when it returns `SUCCESS`.
How the thread has ended is not looked at. -/
def restoreClient (e : RestoreEnv) (conn : Incoming) : Except Stop (List Output) :=
  match recvFileList conn with
  | .error stop => .error stop
  | .ok (filelist, conn) =>
    if e.thread = false then .error .failure
    else
      match pushFiles e.chunknum filelist.length filelist conn with
      | .error stop => .error stop
      | .ok pool =>
        match constructFile e.clock e.store (trimSlash e.restore_path) e.io 0 pool e.worker with
        | none => .error .stuck
        | some written => .ok written

/-- The data of the chunks, as far as they are in their container files and can be written. -/
def readAll (d : Disk) (wrote : ℕ → ℕ) : ℕ → List FingerChunk → Option (List Bytes)
  | _, [] => some []
  | j, fc :: fcs =>
    (fetch d fc.chunkaddress fc.chunk_hash).bind fun data =>
      if data.length ≤ wrote j then (readAll d wrote (j + 1) fcs).map (data :: ·) else none

/-- The first chunk that is not read and written as it should be has no entry in its container. -/
def DiesOn (d : Disk) (wrote : ℕ → ℕ) : ℕ → List FingerChunk → Prop
  | _, [] => False
  | j, fc :: fcs => Missing d fc.chunkaddress fc.chunk_hash ∨
      (∃ data, fetch d fc.chunkaddress fc.chunk_hash = some data ∧ data.length ≤ wrote j) ∧
        DiesOn d wrote (j + 1) fcs

/-- The loop over the chunks reads them from their container files. -/
theorem writeChunks_eq {clock : ℕ → ℤ} {d : Disk} {wanted : Chunkaddress → Prop} {wrote : ℕ → ℕ}
    {j : ℕ} {fcs : List FingerChunk} {r : Restore}
    (h : Cached d wanted r.restore_cache) (hwanted : ∀ fc ∈ fcs, wanted fc.chunkaddress) :
    (writeChunks clock d wrote j fcs r = none ↔ DiesOn d wrote j fcs) ∧
      (writeChunks clock d wrote j fcs r).join.map Prod.fst = readAll d wrote j fcs ∧
      ∀ p, writeChunks clock d wrote j fcs r = some (some p) → Cached d wanted p.2.restore_cache := by
  induction fcs generalizing j r with
  | nil =>
    refine ⟨by simp [writeChunks, DiesOn], rfl, fun p hp => ?_⟩
    obtain rfl := Option.some.inj (Option.some.inj hp)
    exact h
  | cons fc fcs ih =>
    obtain ⟨hdies, hfetch, hcached⟩ := @restoreChunk_fetch clock d wanted r h
      ⟨0, fc.chunk_hash, fc.chunkaddress, []⟩ (hwanted fc (by simp))
    rw [writeChunks, readAll, DiesOn]
    rcases hrestore : restoreChunk clock d r ⟨0, fc.chunk_hash, fc.chunkaddress, []⟩ with ⟨got, r'⟩
    rw [hrestore] at hdies hfetch hcached
    dsimp only at hdies hfetch hcached ⊢
    rw [← hfetch, ← hdies]
    match got with
    | none => simp
    | some none => simp
    | some (some chunk) =>
      obtain ⟨hrestDies, hrest, hrestCached⟩ :=
        @ih (j + 1) r' (hcached (by simp)) fun x hx => hwanted x (List.mem_cons_of_mem _ hx)
      dsimp only [Option.join, Option.map_some, Option.bind_some, id_eq]
      by_cases hwrote : chunk.data.length ≤ wrote j
      · rw [if_pos hwrote, if_pos hwrote, ← hrest]
        refine ⟨?_, ?_, fun p hp => ?_⟩
        · rw [Option.map_eq_none_iff, hrestDies]
          simp [hwrote]
        · cases writeChunks clock d wrote (j + 1) fcs r' with
          | none => rfl
          | some written => cases written <;> rfl
        · obtain ⟨written, hwritten, hp⟩ := Option.map_eq_some_iff.mp hp
          obtain ⟨q, rfl, rfl⟩ := Option.map_eq_some_iff.mp hp
          exact hrestCached q hwritten
      · rw [if_neg hwrote, if_neg hwrote]
        simp [hwrote]

end TCBackup.Client
