import TCBackup.Client.SkippedFile
import TCBackup.Pipeline.RecipeTransport

/-!
# Accounting in the pipelined client (`client/src/pipeline_backup.c`)

`update_recipe_module` reads the flag of every chunk under its lock, while the chunk dedup
thread may still work on later files, and adds up what was deduplicated.

## Main definitions

- `Sizes`, `countFile` — what `update_recipe_module` adds up
- `oldSize` — what `file_dedup_module` adds up
- `Packable` — the files that `update_recipe_module` can count and pack

## Main results

- `chunks_accounted` — in every interleaving the flags read tell what was stored, and what is
  not counted as a duplicate was stored
- `long_file_not_accounted` — a file of 2³¹ chunks
-/

namespace TCBackup.Pipeline.Accounting

open ByteFile Client Handoff

/-- `total_dedup_size` and `total_chunk_size` -/
structure Sizes where
  total_dedup_size : ℕ
  total_chunk_size : ℕ

/-- A chunk is read under its lock. -/
def countChunk (z : Sizes) (fc : FingerChunk) : Sizes :=
  ⟨if fc.is_new = .dedupChunk then z.total_dedup_size + fc.chunklen else z.total_dedup_size,
    z.total_chunk_size + fc.chunklen⟩

/-- A round of `update_recipe_module`, with the chunks as they were read. -/
def countFile (s : Settings) (z : Sizes) (p : FileInfo ℕ × List FingerChunk) : Sizes :=
  if s.rewrite = .noRewrite ∧ p.1.is_new = .dedupFile then
    { z with total_dedup_size := z.total_dedup_size + p.1.file_size }
  else p.2.foldl countChunk z

/-- `old_size`, from the sizes that `stat` returns. -/
def oldSize (content : Bytes → Bytes) (stream : List (Bytes × Answer)) : ℕ :=
  ((stream.map Prod.fst).map fun path => (content path).length).sum

/-- `cfl_process` comes to all chunks of a file, and its recipe goes into one message if it is new. -/
def Packable (s : Settings) (bytes : Bytes) (answer : Answer) : Prop :=
  (answer = .newFile → RecipeTransport.FitsRecipe bytes) ∧ (s.rewrite ≠ .noRewrite → FitsChunknum bytes)

/-- The chunks with their flags as `update_recipe_module` has read them. -/
def chunksRead (s : Settings) (q : Config ℕ FingerChunk (FileInfo ℕ) Chunk) : List (ℕ × FingerChunk) :=
  reads (ownChunks s) q

variable {sha1 : Bytes → Fingerprint} {s : Settings} {clock : ℕ → ℤ} {content : Bytes → Bytes}
  {ex₀ : ExtremeBinning} {store₀ : Store} {paths : List Bytes} {t : DedupThread} {σ : ℕ → Stage}

/-- The part of a chunk that counts as a duplicate, and the part that counts as new. -/
def dedupPart (fc : FingerChunk) : ℕ := if fc.is_new = .dedupChunk then fc.chunklen else 0

def newPart (fc : FingerChunk) : ℕ := if fc.is_new = .newChunk then fc.chunklen else 0

theorem parts (fc : FingerChunk) : fc.chunklen = dedupPart fc + newPart fc := by
  rw [dedupPart, newPart]
  cases fc.is_new with
  | newChunk => simp
  | dedupChunk => simp

theorem settled_of_pushed (h : Ended s content ex₀ store₀ paths t σ) {r : ℕ}
    (hr : r ∈ pushedChunks s t.work) : σ r = .settled :=
  (h.life.published r (mem_pushedChunks.mp hr)).resolve_left (h.decided r)

/-- The flag of a chunk tells whether it was stored. -/
theorem flag_iff (h : Ended s content ex₀ store₀ paths t σ) {r : ℕ}
    (hr : r ∈ pushedChunks s t.work) :
    ((t.work.chunk r).is_new = .newChunk ↔ (t.work.passed r).length = 1) ∧
      ((t.work.chunk r).is_new = .dedupChunk ↔ t.work.passed r = []) := by
  have hpassed := h.life.passed r
  rw [PassedOnce] at hpassed
  cases hflag : (t.work.chunk r).is_new with
  | newChunk =>
    rw [if_pos ⟨settled_of_pushed h hr, hflag⟩] at hpassed
    obtain ⟨chunk, hone, -⟩ := hpassed
    simp [hone]
  | dedupChunk =>
    rw [if_neg (by simp [hflag])] at hpassed
    simp [hpassed]

theorem sum_passed (h : Ended s content ex₀ store₀ paths t σ) {r : ℕ}
    (hr : r ∈ pushedChunks s t.work) :
    ((t.work.passed r).map Chunk.length).sum = newPart (t.work.chunk r) := by
  have hpassed := h.life.passed r
  rw [PassedOnce] at hpassed
  rw [newPart]
  by_cases hflag : (t.work.chunk r).is_new = .newChunk
  · rw [if_pos ⟨settled_of_pushed h hr, hflag⟩] at hpassed
    obtain ⟨chunk, hone, hlen⟩ := hpassed
    rw [hone, if_pos hflag, List.map_singleton, List.sum_singleton, hlen]
  · rw [if_neg fun hnew => hflag hnew.2] at hpassed
    rw [hpassed, if_neg hflag, List.map_nil, List.sum_nil]

/-- Only chunks that were forwarded are stored. -/
theorem pushed_of_passed (h : Ended s content ex₀ store₀ paths t σ) {p : ℕ × Chunk}
    (hp : p ∈ acts t.work.log) : p.1 ∈ pushedChunks s t.work := by
  have hpassed := h.life.passed p.1
  have hmem : p.2 ∈ t.work.passed p.1 :=
    List.mem_map_of_mem (List.mem_filter.mpr ⟨hp, decide_eq_true rfl⟩)
  rw [PassedOnce] at hpassed
  split at hpassed
  · next hset => exact h.ledger.decided p.1 (.inr hset.1)
  · simp [hpassed] at hmem

/-- What is passed to `store_chunk` in all. -/
theorem stored_eq (h : Ended s content ex₀ store₀ paths t σ) :
    ((acts t.work.log).map fun p => p.2.length).sum =
      ((pushedChunks s t.work).map fun r => newPart (t.work.chunk r)).sum := by
  rw [sum_acts Chunk.length h.ledger.nodup fun p hp => pushed_of_passed h hp]
  exact congrArg List.sum (List.map_congr_left fun r hr => sum_passed h hr)

theorem foldl_countChunk (z : Sizes) (l : List FingerChunk) :
    (l.foldl countChunk z).total_dedup_size = z.total_dedup_size + (l.map dedupPart).sum := by
  induction l generalizing z with
  | nil => rfl
  | cons fc l ih =>
    rw [List.foldl_cons, ih, List.map_cons, List.sum_cons, countChunk, dedupPart]
    dsimp only
    split <;> omega

/-- The part of a file that counts as duplicate, once its chunks are decided. -/
def fileDedup (s : Settings) (chunk : ℕ → FingerChunk) (f : FileInfo ℕ) : ℕ :=
  if s.rewrite = .noRewrite ∧ f.is_new = .dedupFile then f.file_size
  else (f.chunks.map fun r => dedupPart (chunk r)).sum

theorem foldl_countFile (z : Sizes) (m : ℕ → FingerChunk) (log : Accesses) (l : List (FileInfo ℕ)) :
    ((l.map (Final (ownChunks s) m log)).foldl (countFile s) z).total_dedup_size =
      z.total_dedup_size + (l.map (fileDedup s (after m log))).sum := by
  induction l generalizing z with
  | nil => rfl
  | cons f l ih =>
    rw [List.map_cons, List.foldl_cons, ih, List.map_cons, List.sum_cons, countFile, fileDedup]
    by_cases hown : s.rewrite = .noRewrite ∧ f.is_new = .dedupFile
    · rw [Final, if_pos hown, if_pos hown]
      exact Nat.add_assoc _ _ _
    · rw [Final, if_neg hown, if_neg hown, foldl_countChunk, ownChunks, if_neg hown, List.map_map]
      exact Nat.add_assoc _ _ _

/-- The bytes of a file that was forwarded. -/
theorem file_size_eq (h : Ended s content ex₀ store₀ paths t σ) {f : FileInfo ℕ}
    (hf : f ∈ groups t.work.log) :
    f.file_size = fileDedup s t.work.chunk f +
      ((ownChunks s f).map fun r => newPart (t.work.chunk r)).sum := by
  rw [fileDedup, ownChunks]
  by_cases hown : s.rewrite = .noRewrite ∧ f.is_new = .dedupFile
  · rw [if_pos hown, if_pos hown, List.map_nil, List.sum_nil, Nat.add_zero]
  · rw [if_neg hown, if_neg hown, ← List.sum_map_add, ← h.ledger.whole f hf hown]
    exact congrArg List.sum (List.map_congr_left fun r _ => parts _)

theorem sum_newPart (chunk : ℕ → FingerChunk) (l : List (FileInfo ℕ)) :
    ((l.flatMap (ownChunks s)).map fun r => newPart (chunk r)).sum =
      (l.map fun f => ((ownChunks s f).map fun r => newPart (chunk r)).sum).sum := by
  induction l with
  | nil => rfl
  | cons f l ih =>
    rw [List.flatMap_cons, List.map_append, List.sum_append, ih, List.map_cons, List.sum_cons]

/-- Every byte is a duplicate, was stored, or belongs to a file that was given up. -/
theorem oldSize_eq (h : Ended s content ex₀ store₀ paths t σ) :
    (paths.map fun path => (content path).length).sum =
      ((groups t.work.log).map (fileDedup s t.work.chunk)).sum +
        ((acts t.work.log).map fun p => p.2.length).sum + (t.failed.map FileInfo.file_size).sum := by
  rw [h.ledger.sizes, stored_eq h, pushedChunks, sum_newPart, ← List.sum_map_add]
  congr 2
  exact List.map_congr_left fun f hf => file_size_eq h hf

/-- In every interleaving of the two threads the flags read are final: new chunks were stored
once, duplicates never. In the end `old_size` is `total_dedup_size` and what was stored, if no
file failed; files fail only if they are duplicates for the server and not for the bin, while
the policy is to rewrite at the end of the stream. -/
theorem chunks_accounted (sha1 : Bytes → Fingerprint) (s : Settings) (clock : ℕ → ℤ)
    (content : Bytes → Bytes) (disk : Disk) (names : Names) (rabin : Rabin) (u : ℤ)
    (stream : List (Bytes × Answer)) (hcount : ∀ item ∈ stream, Packable s (content item.1) item.2)
    {t : DedupThread}
    (ht : chunkDedupModule sha1 s clock content stream (dedupStart clock disk names rabin u) = some t)
    {es : List Handoff.Event} {q : Config ℕ FingerChunk (FileInfo ℕ) Chunk}
    (hq : Labelled.Run (Handoff.step (ownChunks s) FingerChunk.mutex noChunks) (fun _ _ => True)
      (start t.work.log) es q) :
    (∀ p ∈ chunksRead s q,
      (p.2.is_new = .newChunk ↔ (t.work.passed p.1).length = 1) ∧
      (p.2.is_new = .dedupChunk ↔ t.work.passed p.1 = [])) ∧
    (Labelled.Stuck (Handoff.step (ownChunks s) FingerChunk.mutex noChunks) q →
      (t.failed = [] → oldSize content stream =
        (q.finished.foldl (countFile s) ⟨0, 0⟩).total_dedup_size +
          ((acts t.work.log).map fun p => p.2.length).sum) ∧
      ∀ f ∈ t.failed, s.rewrite = .perfectRewrite ∧ f.is_new = .dedupFile) := by
  obtain ⟨σ, -, hend⟩ := chunkDedupModule_moves (fun hs item hitem => (hcount item hitem).2 hs) ht
  refine ⟨fun p hp => ?_, fun hstuck => ⟨fun hfailed => ?_, hend.ledger.failed⟩⟩
  · obtain ⟨hpub, hvalue⟩ := (reading_of_run hend.life.guarded hq).reads hp
    rw [hvalue]
    exact flag_iff hend (mem_pushedChunks.mpr hpub)
  · obtain ⟨-, -, hfinished⟩ := finished_of_stuck hend.life.guarded
      (fun r hpub => hend.life.unlocked r (hend.decided r) (by
        simp [settled_of_pushed hend (mem_pushedChunks.mpr hpub)])) hq hstuck
    have hsizes := oldSize_eq hend
    rw [hfailed, List.map_nil, List.sum_nil, Nat.add_zero] at hsizes
    rw [oldSize, hsizes, hfinished, foldl_countFile, Nat.zero_add]
    rfl

/-- A new file of three bytes, without rewriting. -/
theorem chunks_accounted_one :
    ∃ t es q, chunkDedupModule (fun _ => zeroFinger) ⟨.noRewrite, fun _ _ => true, fun _ => true,
        fun _ => true, 0, 0⟩ (fun _ => 0) (fun _ => [1, 2, 3]) [([97], .newFile)]
        (dedupStart (fun _ => 0) .empty ⟨1, []⟩ ⟨0, 0, fun _ => 0⟩ 0) = some t ∧
      Labelled.Run (Handoff.step (ownChunks ⟨.noRewrite, fun _ _ => true, fun _ => true,
        fun _ => true, 0, 0⟩) FingerChunk.mutex noChunks) (fun _ _ => True) (start t.work.log) es q ∧
      3 = (q.finished.foldl (countFile ⟨.noRewrite, fun _ _ => true, fun _ => true,
        fun _ => true, 0, 0⟩) ⟨0, 0⟩).total_dedup_size +
          ((acts t.work.log).map fun p => p.2.length).sum := by
  obtain ⟨s, hs⟩ : ∃ s : Settings, s =
    ⟨.noRewrite, fun _ _ => true, fun _ => true, fun _ => true, 0, 0⟩ := ⟨_, rfl⟩
  have hrewrite : s.rewrite = .noRewrite := by rw [hs]
  rw [← hs]
  obtain ⟨t, ht⟩ : ∃ t, chunkDedupModule (fun _ => zeroFinger) s (fun _ => 0) (fun _ => [1, 2, 3])
      [([97], .newFile)] (dedupStart (fun _ => 0) .empty ⟨1, []⟩ ⟨0, 0, fun _ => 0⟩ 0) = some t := by
    rw [hs, ← Option.isSome_iff_exists]
    decide +kernel
  have hcount : ∀ item ∈ [(([97] : Bytes), Answer.newFile)], Packable s [1, 2, 3] item.2 := by
    refine fun item _ => ⟨fun _ rabin => ?_, fun hbad => absurd hrewrite hbad⟩
    exact (length_chunkFile_le rabin [1, 2, 3]).trans (by norm_num [RecipeTransport.maxChunks])
  have hless : ∀ (c : Config ℕ FingerChunk (FileInfo ℕ) Chunk) e c', Handoff.step (ownChunks s) FingerChunk.mutex noChunks c e = some c' →
      remaining (ownChunks s) c' < remaining (ownChunks s) c :=
    fun _ _ _ hstep => remaining_lt hstep
  obtain ⟨es, q, hq, hstuck⟩ := Labelled.exists_stuck hless (start t.work.log)
  have hall := chunks_accounted _ s _ _ _ _ _ _ _ hcount ht hq
  have hfailed : t.failed = [] := by
    refine List.eq_nil_iff_forall_not_mem.mpr fun f hf => ?_
    have hperfect := ((hall.2 hstuck).2 f hf).1
    rw [hrewrite] at hperfect
    simp at hperfect
  exact ⟨t, es, q, ht, hq, (hall.2 hstuck).1 hfailed⟩

/-- The chunks of a file of 2³¹ chunks are read as new, and were never stored. -/
theorem long_file_not_accounted :
    ¬ ∀ (sha1 : Bytes → Fingerprint) (s : Settings) (clock : ℕ → ℤ) (content : Bytes → Bytes) (disk : Disk)
      (names : Names) (rabin : Rabin) (u : ℤ) (stream : List (Bytes × Answer)) (t : DedupThread),
      chunkDedupModule sha1 s clock content stream (dedupStart clock disk names rabin u) = some t →
      ∀ (es : List Handoff.Event) (q : Config ℕ FingerChunk (FileInfo ℕ) Chunk),
        Labelled.Run (Handoff.step (ownChunks s) FingerChunk.mutex noChunks) (fun _ _ => True)
          (start t.work.log) es q →
        ∀ p ∈ chunksRead s q, (p.2.is_new = .newChunk ↔ (t.work.passed p.1).length = 1) := by
  intro hall
  obtain ⟨t, f, hrun, hf, hchunks, hlong, hguarded, hfree, -⟩ := longStream_run
  obtain ⟨r, hr⟩ := List.exists_mem_of_ne_nil _ hchunks
  have hless : ∀ (c : Config ℕ FingerChunk (FileInfo ℕ) Chunk) e c',
      Handoff.step (ownChunks cflSettings) FingerChunk.mutex noChunks c e = some c' →
      remaining (ownChunks cflSettings) c' < remaining (ownChunks cflSettings) c :=
    fun _ _ _ hstep => remaining_lt hstep
  obtain ⟨es, q, hq, hstuck⟩ := Labelled.exists_stuck hless (start t.work.log)
  obtain ⟨-, -, hfinished⟩ := finished_of_stuck hguarded
    (fun r hpub => hfree r (mem_pushedChunks.mpr hpub)) hq hstuck
  have hread : (r, t.work.chunk r) ∈ chunksRead cflSettings q := by
    rw [chunksRead, reads, hfinished]
    refine List.mem_append_left _ (List.mem_flatMap.mpr ⟨_, List.mem_map_of_mem hf, ?_⟩)
    rw [Final, ← List.map_prod_left_eq_zip]
    exact List.mem_map_of_mem hr
  have hstored := (hall _ _ _ _ _ _ _ _ _ t hrun es q hq _ hread).mp (hlong r hr).1
  dsimp only at hstored
  rw [(hlong r hr).2.2] at hstored
  cases hstored

end TCBackup.Pipeline.Accounting
