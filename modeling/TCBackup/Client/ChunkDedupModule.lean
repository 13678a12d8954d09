import TCBackup.Client.Capping
import TCBackup.Client.Cfl
import TCBackup.Client.PipelineBackup

/-!
# The chunk dedup thread (`client/src/pipeline_backup.c`, `client/src/chunkdedup.c`)

The thread takes the files from `file_dedup_queue` one after the other with the answers of
the server. New files are cut into chunks and marked by the policy; duplicate files are too
if there is a policy. At the end of the stream the policy decides what still waits.

## Main definitions

- `DedupThread` — the state of the thread
- `chunkDedup`, `dedupItem`, `chunkDedupModule` — one file, and the whole stream
- `ownChunks` — the chunks of a file that the next thread reads
-/

namespace TCBackup.Client

open ByteFile Handoff

/-- `newfile`, and the messages with the chunks of a duplicate file. -/
inductive Answer
  | newFile
  | dedupFile (msgs : List Bytes)

/-- The state of the thread. Chunks are numbered from `next` on; `failed` holds the files that
the thread does not forward. -/
structure DedupThread where
  work : Work
  exbin : ExtremeBinning
  rabin : Rabin
  next : ℕ
  cfl : Cfl
  perfect : Perfect
  capping : Capping
  failed : List (FileInfo ℕ)

/-- `ExtremeBinningInit`, `store_init` and the `init` function of the policy. `u` is what
`malloc` leaves in the length of the temporary container of `cfl_init`. -/
def dedupStart (clock : ℕ → ℤ) (disk : Disk) (names : Names) (rabin : Rabin) (u : ℤ) : DedupThread :=
  ⟨⟨[], htableInit 0, storeInit clock (extremeBinningInit disk).2 names⟩, (extremeBinningInit disk).1,
    rabin, 0, cflInit u, perfectRewriteInit, cappingInit, []⟩

/-- New chunks are appended to a file. -/
def appendChunks : List FingerChunk → FileInfo ℕ → DedupThread → FileInfo ℕ × DedupThread
  | [], fileinfo, t => (fileinfo, t)
  | fc :: fcs, fileinfo, t =>
    appendChunks fcs (fileAppendFingerchunk fileinfo t.next)
      { t with work := t.work.set t.next fc, next := t.next + 1 }

/-- What `bin` points to. -/
def DedupThread.openBin (t : DedupThread) (bin : Bin) : DedupThread :=
  { t with work := { t.work with fingers := bin.fingers } }

/-- The bin is in the cache with its entries as they are now. -/
def DedupThread.closeBin (t : DedupThread) (bin : Bin) : DedupThread :=
  { t with exbin := t.exbin.setBin { bin with fingers := t.work.fingers } }

variable (sha1 : Bytes → Fingerprint) (s : Settings) (clock : ℕ → ℤ) (content : Bytes → Bytes)

/-- `mark_deplicate_chunk` -/
def markDeplicateChunk (fileinfo : FileInfo ℕ) (t : DedupThread) : Bool × DedupThread :=
  match s.rewrite with
  | .cflRewrite =>
    let q := cflProcess s clock content fileinfo (t.cfl, t.work)
    (true, { t with cfl := q.1, work := q.2 })
  | .perfectRewrite =>
    let q := perfectProcess fileinfo t.perfect t.work
    (q.1, { t with perfect := q.2.1, work := q.2.2 })
  | .cappingRewrite =>
    let q := cappingProcess s clock content fileinfo t.capping t.work
    (q.1, { t with capping := q.2.1, work := q.2.2 })
  | .noRewrite =>
    match fileinfo.is_new with
    | .dedupFile => (true, { t with work := markDedupFile fileinfo.chunks t.work })
    | .newFile =>
      (true, { t with
        work := markNewFile clock (content fileinfo.file_path) 0 fileinfo.chunks t.work })
    | .unset => (true, t)

/-- The chunks of a file with these bytes can be counted in `chunknum`. -/
def FitsChunknum (bytes : Bytes) : Prop := ∀ rabin, (chunkFile rabin bytes).1.length < 2 ^ 31

/-- There are no more chunks than bytes. -/
theorem length_chunkFile_le (rabin : Rabin) (bytes : Bytes) :
    (chunkFile rabin bytes).1.length ≤ bytes.length := by
  have hflat := congrArg List.length (chunkFile_flatten rabin bytes)
  rw [List.length_flatten] at hflat
  have hle := List.length_le_sum_of_one_le ((chunkFile rabin bytes).1.map List.length) (by
    intro n hn
    obtain ⟨c, hc, rfl⟩ := List.mem_map.mp hn
    exact List.length_pos_iff.mpr (isChunk_chunkFile hc).1)
  rw [List.length_map] at hle
  omega

theorem fitsChunknum_of_length {bytes : Bytes} (h : bytes.length < 2 ^ 31) : FitsChunknum bytes :=
  fun rabin => (length_chunkFile_le rabin bytes).trans_lt h

theorem FitsChunknum.nonneg {bytes : Bytes} (h : FitsChunknum bytes) (rabin : Rabin) :
    0 ≤ int32 (chunkFile rabin bytes).1.length := by
  have hlength := h rabin
  rw [int32_eq (by omega) (by omega)]
  exact Int.natCast_nonneg _

/-- The file after `chunk_file` and `calculate_rep_finger`. -/
def cutFile (fileinfo : FileInfo ℕ) (t : DedupThread) : FileInfo ℕ × DedupThread :=
  let cut := chunkFile t.rabin (content fileinfo.file_path)
  let p := appendChunks (fingerChunks sha1 0 cut.1) fileinfo { t with rabin := cut.2 }
  ({ p.1 with rep_finger := zeroFinger }, p.2)

/-- `chunk_dedup`: whether it succeeds, the file and the state; `none` where `LoadBin` does not
return. -/
def chunkDedup (fileinfo : FileInfo ℕ) (t : DedupThread) : Option (Bool × FileInfo ℕ × DedupThread) :=
  let p := cutFile sha1 content fileinfo t
  (loadBin p.2.exbin p.2.work.store.disk p.1.rep_finger p.1.file_hash p.1.chunknum).map fun b =>
    let q := markDeplicateChunk s clock content p.1 ({ p.2 with exbin := b.2 }.openBin b.1)
    (q.1, p.1, q.2.closeBin b.1)

/-- The file is forwarded, unless there was an error. -/
def forward (q : Bool × FileInfo ℕ × DedupThread) : DedupThread :=
  if q.1 then { q.2.2 with work := q.2.2.work.push q.2.1 }
  else { q.2.2 with failed := q.2.2.failed ++ [q.2.1] }

/-- What `pipeline_file_dedup` pushes to `file_dedup_queue`. -/
def queuedFile (path : Bytes) : FileInfo ℕ :=
  { fileNew with
    file_path := path
    file_size := (content path).length
    file_hash := sha1 (content path) }

/-- A round of `chunk_dedup_module`. The chunks that come with a duplicate file are freed if
the file is cut into chunks again. -/
def dedupItem (t : DedupThread) (item : Bytes × Answer) : Option DedupThread :=
  match item.2 with
  | .newFile =>
    (chunkDedup sha1 s clock content { queuedFile sha1 content item.1 with is_new := .newFile } t).map
      forward
  | .dedupFile msgs =>
    let p := appendChunks (msgs.map receivedChunk)
      { queuedFile sha1 content item.1 with is_new := .dedupFile } t
    if s.rewrite = .noRewrite then some (forward (true, p.1, p.2))
    else (chunkDedup sha1 s clock content { p.1 with chunks := [] } p.2).map forward

/-- `LoadBin` at the end of the stream. If the bin is not in the cache, `htable::init` does not
end: the size it gets is `STREAM_END`. -/
def reloadBin (t : DedupThread) : Option Bin := t.exbin.bin_cache.lookup zeroFinger

/-- The policy at the end of the stream. -/
def streamEnd (t : DedupThread) : Option DedupThread :=
  match s.rewrite with
  | .noRewrite => some t
  | .cflRewrite =>
    if t.cfl.tmp_container.chunks = [] then some t
    else (reloadBin t).map fun bin =>
      let q := cflEnd s clock content t.cfl (t.openBin bin).work
      { t with cfl := q.1, work := q.2 }.closeBin bin
  | .perfectRewrite =>
    if t.perfect.dedup_buf = [] then some t
    else (reloadBin t).map fun bin =>
      let q := perfectFlush s clock content t.perfect (t.openBin bin).work
      { t with perfect := { t.perfect with dedup_buf := [] }, work := q.2 }.closeBin bin
  | .cappingRewrite =>
    (reloadBin t).map fun bin =>
      let q := rewrite s clock content t.capping (t.openBin bin).work
      { t with capping := q.2.1, work := q.2.2 }.closeBin bin

/-- `chunk_dedup_module` on a stream of files. -/
def chunkDedupModule (stream : List (Bytes × Answer)) (t : DedupThread) : Option DedupThread :=
  (stream.foldlM (dedupItem sha1 s clock content) t).bind (streamEnd s clock content)

/-- The chunks that `update_recipe_module` reads: duplicate files that are not cut again have
none. -/
def ownChunks (fileinfo : FileInfo ℕ) : List ℕ :=
  if s.rewrite = .noRewrite ∧ fileinfo.is_new = .dedupFile then [] else fileinfo.chunks

end TCBackup.Client
