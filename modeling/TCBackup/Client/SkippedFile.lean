import TCBackup.Client.DedupStream

/-!
# A file that `cfl_process` skips (`client/src/cfl.c`)

The loop of `cfl_process` ends when its count is not less than `chunknum`, an `int32_t`. A file of
2³¹ chunks has a negative one: it is forwarded as it was cut.

## Main definitions

- `longStream` — a small file, and one of 2³¹ chunks

## Main results

- `chunkDedup_skipped` — what becomes of such a file
- `longStream_run` — the run on this stream
-/

namespace TCBackup.Client

open ByteFile Handoff

variable {sha1 : Bytes → Fingerprint} {s : Settings} {clock : ℕ → ℤ} {content : Bytes → Bytes}
  {ex₀ : ExtremeBinning} {store₀ : Store} {paths : List Bytes} {σ : ℕ → Stage} {t : DedupThread}
  {fileinfo : FileInfo ℕ} {q : Bool × FileInfo ℕ × DedupThread}

/-- What `chunk_dedup` leaves of a file: its chunks are as they were cut. -/
structure Skipped (t : DedupThread) (σ : ℕ → Stage) (s : Settings)
    (q : Bool × FileInfo ℕ × DedupThread) : Prop where
  ok : q.1 = true
  cfl : q.2.2.cfl = t.cfl
  store : q.2.2.work.store = t.work.store
  failed : q.2.2.failed = t.failed
  life : Life (ownChunks s) q.2.2.work σ
  fresh : ∀ r ∈ q.2.1.chunks, σ r = .fresh
  chunks : ∀ r ∈ q.2.1.chunks,
    (q.2.2.work.chunk r).is_new = .newChunk ∧ (q.2.2.work.chunk r).chunkaddress = noAddress

theorem chunkDedup_skipped (hs : s.rewrite = .cflRewrite)
    (h : Between sha1 s content ex₀ store₀ paths t σ) (hchunks : fileinfo.chunks = [])
    (hcount : int32 (chunkFile t.rabin (content fileinfo.file_path)).1.length ≤ 0)
    (hrun : chunkDedup sha1 s clock content fileinfo t = some q) : Skipped t σ s q := by
  obtain ⟨-, hb, hcut, -⟩ := cutFile_spec clock (FirstLoad ex₀ store₀) h hchunks
  have hfresh := cutFile_cut clock h hchunks
  have hlength := length_cutFile sha1 content hchunks t
  rw [chunkDedup] at hrun
  generalize cutFile sha1 content fileinfo t = p at hb hcut hfresh hlength hrun
  obtain ⟨f, u⟩ := p
  dsimp only at hb hcut hfresh hlength hrun
  obtain ⟨⟨bin, ex⟩, hload, rfl⟩ := Option.map_eq_some_iff.mp hrun
  rw [hcut.rep] at hload
  have hlife := (hb.bins.openBin sha1 s clock hload).1.life hb.life
  have hnone : f.counted = [] := FileInfo.counted_nil (by rw [FileInfo.chunknum, hlength]; exact hcount)
  have hmark : markDeplicateChunk s clock content f ({ u with exbin := ex }.openBin bin) =
      (true, { u with exbin := ex }.openBin bin) := by
    rw [markDeplicateChunk, hs]
    dsimp only
    rw [cflProcess, hnone]
    rfl
  rw [hmark]
  refine ⟨rfl, hfresh.cfl, hfresh.store, hfresh.failed, hlife, hcut.hand.fresh, fun r hr => ?_⟩
  have hmem : u.work.chunk r ∈ fingerChunks sha1 0 (chunkFile t.rabin (content fileinfo.file_path)).1 := by
    rw [← hfresh.chunks]
    exact List.mem_map_of_mem hr
  exact ⟨(fingerChunks_new hmem).1, (fingerChunks_new hmem).2.1⟩

/-- Nothing was stored for its chunks. -/
theorem Skipped.passed (h : Skipped t σ s q) {r : ℕ} (hr : r ∈ q.2.1.chunks) :
    q.2.2.work.passed r = [] := by
  have hpassed := h.life.passed r
  rw [PassedOnce, if_neg] at hpassed
  · exact hpassed
  · rw [h.fresh r hr]
    exact fun hbad => Stage.noConfusion hbad.1

/-- If no chunk waits, all are free when the file is forwarded. -/
theorem Skipped.unlocked (h : Skipped t σ s q) (hnone : ∀ r, σ r ≠ .pending) {r : ℕ}
    (hr : r ∈ pushedChunks s (q.2.2.work.push q.2.1)) : (q.2.2.work.chunk r).mutex = false := by
  refine h.life.unlocked r (hnone r) ?_
  rw [pushedChunks_push] at hr
  rcases List.mem_append.mp hr with hold | hnew
  · have hsettled := (h.life.published r (mem_pushedChunks.mp hold)).resolve_left (hnone r)
    rw [hsettled]
    exact Stage.noConfusion
  · have hown : r ∈ q.2.1.chunks := by
      rw [ownChunks] at hnew
      split at hnew
      · cases hnew
      · exact hnew
    rw [h.fresh r hown]
    exact Stage.noConfusion

def cflSettings : Settings := ⟨.cflRewrite, fun _ _ => true, fun _ => true, fun _ => true, 0, 0⟩

/-- Three bytes, and then 2⁴⁷ zeros. -/
def longContent (path : Bytes) : Bytes :=
  if path = [97] then [1, 2, 3] else List.replicate (2 ^ 31 * maxChunkSize) 0

def longStream : List (Bytes × Answer) := [([97], .newFile), ([98], .newFile)]

def emptyStart : DedupThread := dedupStart (fun _ => 0) .empty ⟨1, []⟩ ⟨0, 0, fun _ => 0⟩ 0

/-- The small file brings the bin into the cache, and nothing waits. -/
theorem longStream_first :
    ∃ t σ, dedupItem (fun _ => zeroFinger) cflSettings (fun _ => 0) longContent emptyStart
        ([97], .newFile) = some t ∧
      Between (fun _ => zeroFinger) cflSettings longContent emptyStart.exbin emptyStart.work.store [[97]]
        t σ ∧
      t.cfl.tmp_container.chunks = [] ∧ t.exbin.bin_cache.lookup zeroFinger ≠ none ∧
      t.work.store.names.calls = [⟨0, 2⟩] := by
  have hfirst : (dedupItem (fun _ => zeroFinger) cflSettings (fun _ => 0) longContent emptyStart
      ([97], .newFile)).map (fun t => (t.cfl.tmp_container.chunks.isEmpty,
        (t.exbin.bin_cache.lookup zeroFinger).isSome, t.work.store.names.calls)) =
      some (true, true, [⟨0, 2⟩]) := by
    decide +kernel
  obtain ⟨t, ht, heq⟩ := Option.map_eq_some_iff.mp hfirst
  obtain ⟨hempty, heq⟩ := Prod.mk.inj heq
  obtain ⟨hcached, hcalls⟩ := Prod.mk.inj heq
  have hstart := between_start (fun _ => zeroFinger) cflSettings longContent (fun _ => 0) .empty ⟨1, []⟩
    ⟨0, 0, fun _ => 0⟩ 0
  obtain ⟨σ, -, hbetween⟩ := dedupItem_between hstart
    (fun _ => fitsChunknum_of_length (by rw [longContent, if_pos rfl]; decide)) ht
  exact ⟨t, σ, ht, hbetween, List.isEmpty_iff.mp hempty, Option.isSome_iff_ne_none.mp hcached, hcalls⟩

/-- The long file is forwarded as it was cut. -/
theorem longStream_skipped :
    ∃ t σ q, chunkDedupModule (fun _ => zeroFinger) cflSettings (fun _ => 0) longContent longStream
        emptyStart = some (forward q) ∧
      Skipped t σ cflSettings q ∧ (∀ r, σ r ≠ .pending) ∧ q.2.1.chunks.length = 2 ^ 31 ∧
      t.work.store.names.calls = [⟨0, 2⟩] := by
  obtain ⟨t, σ, hfirst, hbetween, hempty, hcached, hcalls⟩ := longStream_first
  obtain ⟨bin, hbin⟩ := Option.ne_none_iff_exists'.mp hcached
  obtain ⟨fileinfo, hfileinfo⟩ : ∃ f : FileInfo ℕ, f =
    { queuedFile (fun _ => zeroFinger) longContent [98] with is_new := .newFile } := ⟨_, rfl⟩
  have hchunks : fileinfo.chunks = [] := by rw [hfileinfo]; rfl
  have hlength : (chunkFile t.rabin (longContent fileinfo.file_path)).1.length = 2 ^ 31 := by
    have hzeros : longContent fileinfo.file_path = List.replicate (2 ^ 31 * maxChunkSize) 0 := by
      rw [hfileinfo]
      exact if_neg (by decide)
    rw [hzeros, chunkFile_zeros, List.length_replicate]
  obtain ⟨q, hq⟩ : ∃ q, chunkDedup (fun _ => zeroFinger) cflSettings (fun _ => 0) longContent fileinfo t =
      some q := by
    have hexbin : (cutFile (fun _ => zeroFinger) longContent fileinfo t).2.exbin = t.exbin :=
      (appendChunks_only _ _ _).exbin
    have hrep : (cutFile (fun _ => zeroFinger) longContent fileinfo t).1.rep_finger = zeroFinger := rfl
    rw [chunkDedup]
    dsimp only
    rw [hexbin, hrep, loadBin, hbin]
    exact ⟨_, rfl⟩
  have hskipped := chunkDedup_skipped rfl hbetween hchunks (by rw [hlength]; decide) hq
  have hsecond : dedupItem (fun _ => zeroFinger) cflSettings (fun _ => 0) longContent t ([98], .newFile) =
      some (forward q) := by
    rw [dedupItem]
    dsimp only
    rw [← hfileinfo, hq, Option.map_some]
  have hend : streamEnd cflSettings (fun _ => 0) longContent (forward q) = some (forward q) := by
    have hnil : (forward q).cfl.tmp_container.chunks = [] := by
      rw [forward, if_pos hskipped.ok]
      exact (congrArg (fun c : Cfl => c.tmp_container.chunks) hskipped.cfl).trans hempty
    rw [streamEnd]
    exact if_pos hnil
  refine ⟨t, σ, q, ?_, hskipped, fun r hpending => ?_, ?_, hcalls⟩
  · rw [chunkDedupModule, longStream, List.foldlM_cons, hfirst, Option.bind_eq_bind, Option.bind_some,
      List.foldlM_cons, hsecond, Option.bind_eq_bind, Option.bind_some, List.foldlM_nil]
    exact hend
  · have hwaiting := hbetween.policy
    rw [PolicyHolds] at hwaiting
    have hmem := (hwaiting.waiting.pending r).mp hpending
    rw [Cfl.buffer, hempty] at hmem
    cases hmem
  · rw [← hlength, ← length_cutFile (fun _ => zeroFinger) longContent hchunks t]
    obtain ⟨b, -, rfl⟩ := Option.map_eq_some_iff.mp hq
    rfl

/-- The run: the chunks of the long file are new, have no address and were never stored. All chunks
are free at the end. -/
theorem longStream_run :
    ∃ t f, chunkDedupModule (fun _ => zeroFinger) cflSettings (fun _ => 0) longContent longStream
        emptyStart = some t ∧
      f ∈ groups t.work.log ∧ f.chunks ≠ [] ∧
      (∀ r ∈ f.chunks, (t.work.chunk r).is_new = .newChunk ∧
        (t.work.chunk r).chunkaddress = noAddress ∧ t.work.passed r = []) ∧
      Guarded (ownChunks cflSettings) FingerChunk.mutex noChunks t.work.log ∧
      (∀ r ∈ pushedChunks cflSettings t.work, (t.work.chunk r).mutex = false) ∧
      t.work.store.names.calls = [⟨0, 2⟩] := by
  obtain ⟨t, σ, q, hrun, hskipped, hnone, hlength, hcalls⟩ := longStream_skipped
  have hforward : (forward q).work = q.2.2.work.push q.2.1 := by rw [forward, if_pos hskipped.ok]
  refine ⟨forward q, q.2.1, hrun, ?_, ?_, fun r hr => ?_, ?_, fun r hr => ?_, ?_⟩
  · rw [hforward, Work.push, groups_append]
    exact List.mem_append_right _ (List.mem_singleton_self _)
  · intro hnil
    rw [hnil] at hlength
    cases hlength
  · rw [hforward, push_chunk]
    refine ⟨(hskipped.chunks r hr).1, (hskipped.chunks r hr).2, ?_⟩
    rw [Work.passed, Work.push, acts_append, acts_publish, List.append_nil]
    exact hskipped.passed hr
  · rw [hforward, Work.push]
    exact hskipped.life.guarded.snoc fun i hi => by cases hi
  · rw [hforward] at hr ⊢
    rw [push_chunk]
    exact hskipped.unlocked hnone hr
  · rw [hforward]
    exact (congrArg (fun store : Store => store.names.calls) hskipped.store).trans hcalls

end TCBackup.Client
