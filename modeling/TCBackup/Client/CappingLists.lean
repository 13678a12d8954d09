import TCBackup.Client.Attempts
import TCBackup.Client.Capping

/-!
# The chunk lists of the buffer (`client/src/capping.c`)

A list in the buffer is a pair of pointers into the chunks of a file, and the second one moves
on with the loop of `capping_process`. `rewrite` follows the chunks from the first to the
second.

## Main definitions

- `ChunkRange` — a `ChunkList` with its pointers
- `Attempt.rewrite`, `Attempt.cappingProcess` — the policy where calls can fail
- `cappingRun` — a stream of files
-/

namespace TCBackup.Client

open ByteFile Handoff Locking

/-- `first` is the list of chunks from that one on, with which the pointer can be followed; it is
empty for `NULL`. -/
structure ChunkRange where
  path : Bytes
  first : List ℕ
  last : Option ℕ

/-- The chunks that the loop of `rewrite` meets. -/
def upTo (last : Option ℕ) : List ℕ → List ℕ
  | [] => []
  | r :: rs => if some r = last then [r] else r :: upTo last rs

def ChunkRange.walk (cl : ChunkRange) : List ℕ := upTo cl.last cl.first

/-- `Capping` with pointers. -/
structure CappingLists where
  buffer_length : ℤ
  chunk_buffer : List ChunkRange
  segment_buffer : HTable 64 ℤ

def CappingLists.init : CappingLists := ⟨0, [], htableInit 50⟩

namespace Attempt

variable (fails : Fails) (s : Settings) (clock : ℕ → ℤ) (content : Bytes → Bytes)

/-- A round of the loop of `rewrite`, up to the unlock. -/
def cappingDecide (segments : HTable 64 ℤ) (path : Bytes) (opened : Bool) (r : ℕ) (t : Attempt) :
    Bool × Attempt :=
  match (t.work.chunk r).is_new with
  | .newChunk =>
    match t.work.found r with
    | some address => (true, t.on fun w => w.markDedup r address)
    | none =>
      let q := tryWrite fails clock true opened (content path) (t.work.chunk r).offset r t
      (q.1, if q.1 then q.2.on fun w => w.insertMeta r else q.2)
  | .dedupChunk =>
    match segments.lookup (t.work.chunk r).chunkaddress with
    | none =>
      let q := tryWrite fails clock true opened (content path) (t.work.chunk r).offset r t
      (q.1, if q.1 then q.2.on fun w => (w.markNew r).updateMeta r else q.2)
    | some _ => (true, t)

/-- The loop of `rewrite` over the chunks of a list. -/
def rewriteRange (segments : HTable 64 ℤ) (path : Bytes) (opened : Bool) (last : Option ℕ) :
    List ℕ → Attempt → Bool × Attempt
  | [], t => (true, t)
  | r :: rs, t =>
    let q := cappingDecide fails clock content segments path opened r t
    if q.1 then
      if some r = last then (true, q.2.unlock r)
      else rewriteRange segments path opened last rs (q.2.unlock r)
    else q

/-- The loop of `rewrite` over the lists; those behind an error stay in the buffer. -/
def rewriteRanges (segments : HTable 64 ℤ) :
    List ChunkRange → Attempt → Bool × List ChunkRange × Attempt
  | [], t => (true, [], t)
  | cl :: rest, t =>
    let opened := tryOpen fails true (t.take cl.walk)
    let q := rewriteRange fails clock content segments cl.path opened.1 cl.last cl.first opened.2
    if q.1 then rewriteRanges segments rest q.2 else (false, rest, q.2)

/-- `rewrite` -/
def rewrite (b : CappingLists) (t : Attempt) : Bool × CappingLists × Attempt :=
  let sorted :=
    if s.max_refer_count < b.segment_buffer.size then
      sortSegments s.max_refer_count b.segment_buffer
    else (true, b.segment_buffer)
  if sorted.1 then
    let q := rewriteRanges fails clock content sorted.2 b.chunk_buffer t
    if q.1 then (true, { b with chunk_buffer := [], segment_buffer := htableInit 50 }, q.2.2)
    else (false, { b with chunk_buffer := q.2.1, segment_buffer := sorted.2 }, q.2.2)
  else (false, { b with segment_buffer := sorted.2 }, t)

/-- The variables of the loop of `capping_process`: `cl`, and the buffers. -/
abbrev CappingLoop := ChunkRange × CappingLists × Attempt

/-- The buffer is emptied before a chunk that does not fit; `fcs` are the chunks from that one
on. -/
def cappingRoom (fileinfo : FileInfo ℕ) (r : ℕ) (fcs : List ℕ) (x : CappingLoop) :
    Bool × CappingLoop :=
  if s.buffer_capacity < addLength (x.2.2.work.chunk r).chunklen x.2.1.buffer_length then
    if fcs ≠ fileinfo.chunks then
      let q := rewrite fails s clock content
        { x.2.1 with chunk_buffer := x.2.1.chunk_buffer ++ [x.1] } x.2.2
      if q.1 then (true, ⟨fileinfo.file_path, fcs, some r⟩, { q.2.1 with buffer_length := 0 }, q.2.2)
      else (false, x.1, q.2)
    else
      let q := rewrite fails s clock content x.2.1 x.2.2
      if q.1 then (true, x.1, { q.2.1 with buffer_length := 0 }, q.2.2) else (false, x.1, q.2)
  else (true, x)

/-- The chunk is marked and locked. -/
def cappingMark (r : ℕ) (x : CappingLoop) : CappingLoop :=
  let cl := { x.1 with last := some r }
  let length := (x.2.2.work.chunk r).chunklen
  let b := { x.2.1 with buffer_length := addLength length x.2.1.buffer_length }
  match x.2.2.work.found r with
  | none => (cl, b, (x.2.2.on fun w => w.markNew r).lock r)
  | some address =>
    (cl, { b with segment_buffer := addUsage (· + ·) b.segment_buffer address length },
      (x.2.2.on fun w => w.markDedup r address).lock r)

/-- The loop of `capping_process`, from a chunk of the file on. -/
def cappingChunks (fileinfo : FileInfo ℕ) : List ℕ → CappingLoop → Bool × CappingLoop
  | [], x => (true, x)
  | r :: rs, x =>
    let q := cappingRoom fails s clock content fileinfo r (r :: rs) x
    if q.1 then cappingChunks fileinfo rs (cappingMark r q.2) else q

/-- `capping_process` of a file. -/
def cappingProcess (fileinfo : FileInfo ℕ) (b : CappingLists) (t : Attempt) :
    Bool × CappingLists × Attempt :=
  let q := cappingChunks fails s clock content fileinfo fileinfo.chunks
    (⟨fileinfo.file_path, fileinfo.chunks, fileinfo.chunks.head?⟩, b, t)
  if q.1 then
    (true, { q.2.2.1 with chunk_buffer := q.2.2.1.chunk_buffer ++ [q.2.1] }, q.2.2.2)
  else (false, q.2.2)

/-- The files one after the other, with those that are pushed to `chunk_dedup_queue`. -/
def cappingFiles (files : List (FileInfo ℕ)) (x : List (FileInfo ℕ) × CappingLists × Attempt) :
    List (FileInfo ℕ) × CappingLists × Attempt :=
  files.foldl
    (fun x fileinfo =>
      let q := cappingProcess fails s clock content fileinfo x.2.1 x.2.2
      (if q.1 then x.1 ++ [fileinfo] else x.1, q.2))
    x

/-- A stream of files, with the call for `STREAM_END`: whether that one succeeds, the files that
were pushed, and what was done. -/
def cappingRun (files : List (FileInfo ℕ)) (w : Work) : Bool × List (FileInfo ℕ) × Attempt :=
  let x := cappingFiles fails s clock content files ([], .init, ⟨w, 0, []⟩)
  let q := rewrite fails s clock content x.2.1 x.2.2
  (q.1, x.1, q.2.2)

end Attempt

end TCBackup.Client
