import TCBackup.Client.DedupMoves

/-!
# The stream of the chunk dedup thread

Between two files the bin is as the thread left it, the policy knows of all chunks that wait,
and every file was forwarded with all of its bytes in its chunks, or given up.

## Main definitions

- `Between` — what holds between two files
- `FirstLoad` — what the bin can have when it comes from its volume

## Main results

- `dedupItem_between`, `streamEnd_moves` — a file, and the end of the stream
- `chunkDedupModule_moves` — the whole stream
-/

namespace TCBackup.Client

open ByteFile Handoff

/-- The entries with which the bin comes from its volume. -/
def FirstLoad (ex₀ : ExtremeBinning) (store₀ : Store) (store : Store)
    (fingers : HTable 20 Chunkaddress) : Prop :=
  store = store₀ ∧ ∃ file_hash n bin ex,
    loadBin ex₀ store₀.disk zeroFinger file_hash n = some (bin, ex) ∧ bin.fingers = fingers

/-- The cached bin has the entries that the thread works with, and before it is loaded nothing
has happened. -/
structure BinKept (ex₀ : ExtremeBinning) (store₀ : Store) (t : DedupThread) (σ : ℕ → Stage) :
    Prop where
  cache : t.exbin.bin_cache.WF
  loaded : ∀ bin, t.exbin.bin_cache.lookup zeroFinger = some bin →
    bin.fingers = t.work.fingers ∧ bin.rep_finger = zeroFinger
  unloaded : t.exbin.bin_cache.lookup zeroFinger = none →
    t.exbin = ex₀ ∧ t.work.store = store₀ ∧ ∀ r, σ r = .fresh

/-- All chunks that other threads read. -/
def pushedChunks (s : Settings) (w : Work) : List ℕ := (groups w.log).flatMap (ownChunks s)

/-- Every file is forwarded with all its bytes in its chunks, or given up. -/
structure Ledger (s : Settings) (content : Bytes → Bytes) (paths : List Bytes) (t : DedupThread)
    (σ : ℕ → Stage) : Prop where
  sizes : (paths.map fun path => (content path).length).sum =
    ((groups t.work.log).map FileInfo.file_size).sum + (t.failed.map FileInfo.file_size).sum
  whole : ∀ f ∈ groups t.work.log, ¬(s.rewrite = .noRewrite ∧ f.is_new = .dedupFile) →
    (f.chunks.map fun r => (t.work.chunk r).chunklen).sum = f.file_size
  nodup : (pushedChunks s t.work).Nodup
  decided : ∀ r, σ r = .pending ∨ σ r = .settled → r ∈ pushedChunks s t.work
  failed : ∀ f ∈ t.failed, s.rewrite = .perfectRewrite ∧ f.is_new = .dedupFile

/-- What holds between two files, after the files with these paths. -/
structure Between (sha1 : Bytes → Fingerprint) (s : Settings) (content : Bytes → Bytes)
    (ex₀ : ExtremeBinning) (store₀ : Store) (paths : List Bytes) (t : DedupThread)
    (σ : ℕ → Stage) : Prop where
  life : Life (ownChunks s) t.work σ
  unused : ∀ r, t.next ≤ r → σ r = .fresh
  unmarked : ∀ r, σ r ≠ .marked
  bins : BinKept ex₀ store₀ t σ
  policy : PolicyHolds sha1 s content t σ
  ledger : Ledger s content paths t σ

variable {sha1 : Bytes → Fingerprint} {s : Settings} {clock : ℕ → ℤ} {content : Bytes → Bytes}
  {Loads : Store → HTable 20 Chunkaddress → Prop} {ex₀ : ExtremeBinning} {store₀ : Store}
  {paths : List Bytes} {w w' : Work} {σ σ' : ℕ → Stage} {t : DedupThread} {fileinfo : FileInfo ℕ}

theorem mem_pushedChunks {r : ℕ} : r ∈ pushedChunks s w ↔ Published (ownChunks s) w.log r := by
  rw [pushedChunks, List.mem_flatMap]
  rfl

/-- Chunks that other threads read have been numbered. -/
theorem Between.lt_next (h : Between sha1 s content ex₀ store₀ paths t σ) {r : ℕ}
    (hr : r ∈ pushedChunks s t.work) : r < t.next := by
  by_contra hle
  have hstage := h.life.published r (mem_pushedChunks.mp hr)
  simp [h.unused r (by omega)] at hstage

-- ════════════════════════════════════════════════════════════════════════
-- New chunks
-- ════════════════════════════════════════════════════════════════════════

theorem Ledger.congr {t' : DedupThread} (h : Ledger s content paths t σ)
    (hgroups : groups t'.work.log = groups t.work.log) (hfailed : t'.failed = t.failed)
    (hlen : ∀ f ∈ groups t.work.log, ¬(s.rewrite = .noRewrite ∧ f.is_new = .dedupFile) →
      ∀ r ∈ f.chunks, (t'.work.chunk r).chunklen = (t.work.chunk r).chunklen)
    (hstage : ∀ r, σ' r = .pending ∨ σ' r = .settled → σ r = .pending ∨ σ r = .settled) :
    Ledger s content paths t' σ' := by
  have hpushed : pushedChunks s t'.work = pushedChunks s t.work := by
    rw [pushedChunks, hgroups]
    rfl
  refine ⟨?_, fun f hf hown => ?_, hpushed ▸ h.nodup, fun r hr => ?_, hfailed ▸ h.failed⟩
  · rw [hgroups, hfailed]
    exact h.sizes
  · rw [hgroups] at hf
    rw [← h.whole f hf hown]
    exact congrArg List.sum (List.map_congr_left (hlen f hf hown))
  · rw [hpushed]
    exact h.decided r (hstage r hr)

theorem mem_pushedChunks_of_file {f : FileInfo ℕ} {r : ℕ} (hf : f ∈ groups w.log)
    (hown : ¬(s.rewrite = .noRewrite ∧ f.is_new = .dedupFile)) (hr : r ∈ f.chunks) :
    r ∈ pushedChunks s w := by
  refine List.mem_flatMap.mpr ⟨f, hf, ?_⟩
  rw [ownChunks, if_neg hown]
  exact hr

/-- A chunk is allocated. -/
theorem Between.alloc (h : Between sha1 s content ex₀ store₀ paths t σ) (clock : ℕ → ℤ)
    (Loads : Store → HTable 20 Chunkaddress → Prop) {fc : FingerChunk} (hfc : fc.mutex = false) :
    Move sha1 s clock Loads (t.work, σ) (t.work.set t.next fc, σ) ∧
      Between sha1 s content ex₀ store₀ paths
        { t with work := t.work.set t.next fc, next := t.next + 1 } σ := by
  have hfresh := h.unused t.next (le_refl _)
  have hmove : Move sha1 s clock Loads (t.work, σ) (t.work.set t.next fc, σ) := .alloc hfresh hfc
  refine ⟨hmove, h.life.move hmove, fun r hr => h.unused r (Nat.le_of_succ_le hr), h.unmarked,
    ⟨h.bins.cache, h.bins.loaded, h.bins.unloaded⟩, ?_, ?_⟩
  · refine h.policy.congr rfl rfl rfl fun r hr => ?_
    rw [chunk_set, Function.update_of_ne]
    rintro rfl
    simp [hfresh] at hr
  · refine h.ledger.congr ?_ rfl (fun f hf hown r hr => ?_) fun r hr => hr
    · rw [set_log, groups_append, groups_set, List.append_nil]
    · have hlt := h.lt_next (mem_pushedChunks_of_file hf hown hr)
      rw [chunk_set, Function.update_of_ne (by omega)]

/-- What `appendChunks` does. -/
structure Appended (sha1 : Bytes → Fingerprint) (s : Settings) (clock : ℕ → ℤ)
    (content : Bytes → Bytes) (Loads : Store → HTable 20 Chunkaddress → Prop) (ex₀ : ExtremeBinning)
    (store₀ : Store) (paths : List Bytes) (fcs : List FingerChunk) (fileinfo : FileInfo ℕ)
    (t : DedupThread) (σ : ℕ → Stage) (q : FileInfo ℕ × DedupThread) : Prop where
  moves : Moves sha1 s clock Loads (t.work, σ) (q.2.work, σ)
  between : Between sha1 s content ex₀ store₀ paths q.2 σ
  file : q.1 = { fileinfo with chunks := fileinfo.chunks ++ List.range' t.next fcs.length }
  chunks : (List.range' t.next fcs.length).map q.2.work.chunk = fcs
  next : q.2.next = t.next + fcs.length
  others : ∀ r < t.next, q.2.work.chunk r = t.work.chunk r

theorem appendChunks_spec (clock : ℕ → ℤ) (Loads : Store → HTable 20 Chunkaddress → Prop)
    (fileinfo : FileInfo ℕ) {fcs : List FingerChunk} (hmutex : ∀ fc ∈ fcs, fc.mutex = false)
    (h : Between sha1 s content ex₀ store₀ paths t σ) :
    Appended sha1 s clock content Loads ex₀ store₀ paths fcs fileinfo t σ
      (appendChunks fcs fileinfo t) := by
  induction fcs generalizing fileinfo t with
  | nil =>
    exact ⟨Moves.refl _ _, h, by simp [appendChunks], rfl, rfl, fun _ _ => rfl⟩
  | cons fc fcs ih =>
    obtain ⟨hmove, hnext⟩ := h.alloc clock Loads (hmutex fc (by simp))
    have hrest := ih (fileAppendFingerchunk fileinfo t.next)
      (fun fc' hfc' => hmutex fc' (List.mem_cons_of_mem _ hfc')) hnext
    have hfirst : (appendChunks (fc :: fcs) fileinfo t).2.work.chunk t.next = fc := by
      have hsame := hrest.others t.next (Nat.lt_succ_self _)
      rw [chunk_set_self] at hsame
      exact hsame
    refine ⟨(Moves.of_move hmove).trans hrest.moves, hrest.between, ?_, ?_, ?_, fun r hr => ?_⟩
    · rw [appendChunks, hrest.file, fileAppendFingerchunk, List.length_cons, List.range'_succ,
        List.append_assoc]
      rfl
    · rw [List.length_cons, List.range'_succ, List.map_cons, hfirst]
      exact congrArg _ hrest.chunks
    · rw [appendChunks, hrest.next, List.length_cons]
      exact Nat.succ_add_eq_add_succ t.next fcs.length
    · have hsame := hrest.others r (Nat.lt_succ_of_lt hr)
      rw [chunk_set, Function.update_of_ne (by omega)] at hsame
      exact hsame

/-- Only the chunks and the next number change. -/
structure OnlyChunks (t t' : DedupThread) : Prop where
  exbin : t'.exbin = t.exbin
  rabin : t'.rabin = t.rabin
  cfl : t'.cfl = t.cfl
  perfect : t'.perfect = t.perfect
  failed : t'.failed = t.failed
  fingers : t'.work.fingers = t.work.fingers
  store : t'.work.store = t.work.store

theorem appendChunks_only (fcs : List FingerChunk) (fileinfo : FileInfo ℕ) (t : DedupThread) :
    OnlyChunks t (appendChunks fcs fileinfo t).2 := by
  induction fcs generalizing fileinfo t with
  | nil => exact ⟨rfl, rfl, rfl, rfl, rfl, rfl, rfl⟩
  | cons fc fcs ih =>
    have hrest := ih (fileAppendFingerchunk fileinfo t.next)
      { t with work := t.work.set t.next fc, next := t.next + 1 }
    exact ⟨hrest.exbin, hrest.rabin, hrest.cfl, hrest.perfect, hrest.failed, hrest.fingers, hrest.store⟩

theorem inRow_of_fingerChunks {l : List Bytes} {size : ℕ} {rs : List ℕ}
    (h : rs.map w.chunk = fingerChunks sha1 size l) : InRow w size rs := by
  induction l generalizing size rs with
  | nil =>
    rw [fingerChunks, List.map_eq_nil_iff] at h
    rw [h]
    trivial
  | cons bs l ih =>
    cases rs with
    | nil => simp [fingerChunks] at h
    | cons r rs =>
      rw [fingerChunks, List.map_cons] at h
      obtain ⟨hchunk, hrest⟩ := List.cons_eq_cons.mp h
      refine ⟨by rw [hchunk], ?_⟩
      rw [hchunk]
      exact ih hrest

-- ════════════════════════════════════════════════════════════════════════
-- The bin
-- ════════════════════════════════════════════════════════════════════════

theorem insertAll_wf {n : ℕ} {α : Type*} (l : List (List.Vector UInt8 n × α)) (tsize : ℕ) :
    ChainTable.WF hashIndex ((htableInit tsize : HTable n α).insertAll l) :=
  (ChainTable.foldl_insert hashIndex_lt (HTable.init_wf tsize).chains).1

/-- A bin that is not in the cache comes into it. -/
theorem loadBin_uncached {ex ex' : ExtremeBinning} {d : Disk} {k file_hash : Fingerprint} {n : ℤ}
    {bin : Bin} (hnone : ex.bin_cache.lookup k = none)
    (hload : loadBin ex d k file_hash n = some (bin, ex')) :
    ex'.bin_cache = ex.bin_cache.insert k bin ∧ bin.rep_finger = k ∧
      ChainTable.WF hashIndex bin.fingers := by
  have hn := nonneg_of_loadBin hload hnone
  rw [loadBin, hnone] at hload
  dsimp only at hload
  rw [newBin_of_nonneg _ k hn, Option.bind_some] at hload
  split at hload
  · obtain ⟨rfl, rfl⟩ := Prod.mk.inj (Option.some.inj hload)
    exact ⟨rfl, rfl, (HTable.init_wf n.toNat).chains⟩
  · obtain ⟨r, hread, heq⟩ := Option.map_eq_some_iff.mp hload
    obtain ⟨rfl, rfl⟩ := Prod.mk.inj heq
    refine ⟨rfl, ?_⟩
    rw [readBinFromVolume] at hread
    split at hread
    · obtain rfl := Option.some.inj hread
      exact ⟨rfl, (HTable.init_wf n.toNat).chains⟩
    · dsimp only at hread
      split at hread
      · simp at hread
      · split at hread
        · obtain rfl := Option.some.inj hread
          exact ⟨rfl, (HTable.init_wf n.toNat).chains⟩
        · obtain rfl := Option.some.inj hread
          exact ⟨rfl, insertAll_wf _ n.toNat⟩

/-- `LoadBin` returns the bin with the entries that the thread works with, or the bin comes from
its volume. -/
theorem BinKept.openBin (sha1 : Bytes → Fingerprint) (s : Settings) (clock : ℕ → ℤ)
    (h : BinKept ex₀ store₀ t σ) {file_hash : Fingerprint} {n : ℤ} {bin : Bin} {ex : ExtremeBinning}
    (hload : loadBin t.exbin t.work.store.disk zeroFinger file_hash n = some (bin, ex)) :
    Moves sha1 s clock (FirstLoad ex₀ store₀) (t.work, σ) ((t.openBin bin).work, σ) ∧
      ex.bin_cache.WF ∧ ex.bin_cache.lookup zeroFinger = some bin ∧ bin.rep_finger = zeroFinger := by
  cases hcached : t.exbin.bin_cache.lookup zeroFinger with
  | some cached =>
    rw [loadBin, hcached] at hload
    obtain ⟨rfl, rfl⟩ := Prod.mk.inj (Option.some.inj hload)
    obtain ⟨hfingers, hrep⟩ := h.loaded _ hcached
    refine ⟨?_, h.cache, hcached, hrep⟩
    rw [DedupThread.openBin, hfingers]
    exact Moves.refl _ _
  | none =>
    obtain ⟨hcache, hrep, hchains⟩ := loadBin_uncached hcached hload
    obtain ⟨hex, hstore, hfresh⟩ := h.unloaded hcached
    refine ⟨.of_move (.load hfresh hchains ⟨hstore, file_hash, n, bin, ex, ?_, rfl⟩), ?_, ?_, hrep⟩
    · rw [← hex, ← hstore]
      exact hload
    · rw [hcache]
      exact h.cache.insert hcached bin
    · rw [hcache, h.cache.lookup_insert hcached, if_pos rfl]

theorem lookup_closeBin {bin : Bin} (hcache : t.exbin.bin_cache.WF)
    (hbin : t.exbin.bin_cache.lookup zeroFinger = some bin) (hrep : bin.rep_finger = zeroFinger) :
    (t.closeBin bin).exbin.bin_cache.WF ∧
      (t.closeBin bin).exbin.bin_cache.lookup zeroFinger =
        some { bin with fingers := t.work.fingers } := by
  have hset : (t.closeBin bin).exbin.bin_cache =
      t.exbin.bin_cache.set zeroFinger { bin with fingers := t.work.fingers } := by
    rw [← hrep]
    rfl
  rw [hset, hcache.lookup_set hbin, if_pos rfl]
  exact ⟨hcache.set _ _, rfl⟩

theorem BinKept.closeBin {bin : Bin} (hcache : t.exbin.bin_cache.WF)
    (hbin : t.exbin.bin_cache.lookup zeroFinger = some bin) (hrep : bin.rep_finger = zeroFinger) :
    BinKept ex₀ store₀ (t.closeBin bin) σ := by
  obtain ⟨hwf, hlookup⟩ := lookup_closeBin hcache hbin hrep
  refine ⟨hwf, fun bin' hbin' => ?_, fun hnone => ?_⟩
  · obtain rfl := Option.some.inj (hlookup.symm.trans hbin')
    exact ⟨rfl, hrep⟩
  · simp [hlookup] at hnone

-- ════════════════════════════════════════════════════════════════════════
-- One file
-- ════════════════════════════════════════════════════════════════════════

/-- A file after `chunk_file`. -/
structure Cut (sha1 : Bytes → Fingerprint) (content : Bytes → Bytes) (n m : ℕ)
    (fileinfo : FileInfo ℕ) (w : Work) (σ : ℕ → Stage) : Prop where
  hand : AtHand sha1 (content fileinfo.file_path) fileinfo.chunks w σ
  row : InRow w 0 fileinfo.chunks
  whole : (fileinfo.chunks.map fun r => (w.chunk r).chunklen).sum =
    (content fileinfo.file_path).length
  numbered : ∀ r ∈ fileinfo.chunks, n ≤ r ∧ r < m
  rep : fileinfo.rep_finger = zeroFinger

theorem cutFile_spec (clock : ℕ → ℤ) (Loads : Store → HTable 20 Chunkaddress → Prop)
    (h : Between sha1 s content ex₀ store₀ paths t σ) (hchunks : fileinfo.chunks = []) :
    Moves sha1 s clock Loads (t.work, σ) ((cutFile sha1 content fileinfo t).2.work, σ) ∧
      Between sha1 s content ex₀ store₀ paths (cutFile sha1 content fileinfo t).2 σ ∧
      Cut sha1 content t.next (cutFile sha1 content fileinfo t).2.next
        (cutFile sha1 content fileinfo t).1 (cutFile sha1 content fileinfo t).2.work σ ∧
      ∃ rs, (cutFile sha1 content fileinfo t).1 =
        { fileinfo with chunks := rs, rep_finger := zeroFinger } := by
  obtain ⟨cut, hcut⟩ : ∃ cut, cut = chunkFile t.rabin (content fileinfo.file_path) := ⟨_, rfl⟩
  have hflat : cut.1.flatten = content fileinfo.file_path := by
    rw [hcut]
    exact chunkFile_flatten _ _
  have hischunk : ∀ c ∈ cut.1, IsChunk c := by
    intro c hc
    rw [hcut] at hc
    exact isChunk_chunkFile hc
  have hplace : ∀ fc ∈ fingerChunks sha1 0 cut.1, ChunkOf sha1 (content fileinfo.file_path) fc := by
    intro fc hfc
    rw [← hflat]
    exact fingerChunks_spec [] hischunk hfc
  have hmutex : ∀ fc ∈ fingerChunks sha1 0 cut.1, fc.mutex = false := fun _ => mutex_fingerChunks
  have hstart : Between sha1 s content ex₀ store₀ paths { t with rabin := cut.2 } σ :=
    ⟨h.life, h.unused, h.unmarked, ⟨h.bins.cache, h.bins.loaded, h.bins.unloaded⟩, h.policy,
      ⟨h.ledger.sizes, h.ledger.whole, h.ledger.nodup, h.ledger.decided, h.ledger.failed⟩⟩
  have hspec := appendChunks_spec clock Loads fileinfo hmutex hstart
  obtain ⟨q, hq⟩ : ∃ q, q = appendChunks (fingerChunks sha1 0 cut.1) fileinfo { t with rabin := cut.2 } :=
    ⟨_, rfl⟩
  have heq : cutFile sha1 content fileinfo t = ({ q.1 with rep_finger := zeroFinger }, q.2) := by
    rw [cutFile, ← hcut, hq]
  rw [← hq] at hspec
  rw [heq, hspec.file, hchunks, List.nil_append]
  refine ⟨hspec.moves, hspec.between, ⟨⟨List.nodup_range', fun r hr => ?_, fun r hr => ?_⟩, ?_, ?_,
    fun r hr => ?_, rfl⟩, _, rfl⟩
  · exact h.unused r (List.mem_range'_1.mp hr).1
  · have hmem : q.2.work.chunk r ∈ fingerChunks sha1 0 cut.1 := by
      rw [← hspec.chunks]
      exact List.mem_map_of_mem hr
    exact hplace _ hmem
  · exact inRow_of_fingerChunks hspec.chunks
  · have hsum := sum_chunklen_fingerChunks sha1 0 cut.1
    rw [← hspec.chunks, List.map_map, hflat] at hsum
    exact hsum
  · rw [hspec.next]
    exact List.mem_range'_1.mp hr

theorem pushedChunks_push (s : Settings) (w : Work) (fileinfo : FileInfo ℕ) :
    pushedChunks s (w.push fileinfo) = pushedChunks s w ++ ownChunks s fileinfo := by
  rw [pushedChunks, Work.push, groups_append, List.flatMap_append]
  exact congrArg _ (List.flatMap_singleton _ _)

/-- The ledger after a file that is forwarded. -/
theorem Ledger.push (t' : DedupThread) (h : Ledger s content paths t σ)
    (hgroups : groups t'.work.log = groups t.work.log) (hfailed : t'.failed = t.failed)
    (hsize : fileinfo.file_size = (content fileinfo.file_path).length)
    (hwhole : ¬(s.rewrite = .noRewrite ∧ fileinfo.is_new = .dedupFile) →
      (fileinfo.chunks.map fun r => (t'.work.chunk r).chunklen).sum = fileinfo.file_size)
    (hlen : ∀ r, (t'.work.chunk r).chunklen = (t.work.chunk r).chunklen)
    (hnodup : (ownChunks s fileinfo).Nodup)
    (hapart : ∀ r ∈ pushedChunks s t.work, r ∉ ownChunks s fileinfo)
    (hstage : ∀ r, σ' r = .pending ∨ σ' r = .settled →
      r ∈ ownChunks s fileinfo ∨ σ r = .pending ∨ σ r = .settled) :
    Ledger s content (paths ++ [fileinfo.file_path])
      { t' with work := t'.work.push fileinfo } σ' := by
  have hpushed : pushedChunks s (t'.work.push fileinfo) =
      pushedChunks s t.work ++ ownChunks s fileinfo := by
    rw [pushedChunks_push, pushedChunks, hgroups]
    rfl
  have hall : groups (t'.work.push fileinfo).log = groups t.work.log ++ [fileinfo] := by
    rw [Work.push, groups_append, hgroups]
    rfl
  refine ⟨?_, fun f hf hown => ?_, ?_, fun r hr => ?_, fun f hf => h.failed f (hfailed ▸ hf)⟩
  · rw [List.map_append, List.sum_append, h.sizes, hall, List.map_append, List.sum_append, hfailed,
      List.map_singleton, List.map_singleton, List.sum_singleton, List.sum_singleton, hsize]
    omega
  · rw [hall, List.mem_append] at hf
    rw [push_chunk]
    cases hf with
    | inl hf =>
      rw [← h.whole f hf hown]
      exact congrArg List.sum (List.map_congr_left fun r _ => hlen r)
    | inr hf =>
      obtain rfl := List.mem_singleton.mp hf
      exact hwhole hown
  · rw [hpushed]
    exact h.nodup.append hnodup fun r hr hr' => hapart r hr hr'
  · rw [hpushed, List.mem_append]
    exact (hstage r hr).symm.imp_left (h.decided r)

/-- The ledger after a file that is given up. -/
theorem Ledger.fail {t' : DedupThread} (h : Ledger s content paths t σ)
    (hgroups : groups t'.work.log = groups t.work.log)
    (hfailed : t'.failed = t.failed ++ [fileinfo])
    (hsize : fileinfo.file_size = (content fileinfo.file_path).length)
    (hlen : ∀ r, (t'.work.chunk r).chunklen = (t.work.chunk r).chunklen)
    (herror : s.rewrite = .perfectRewrite ∧ fileinfo.is_new = .dedupFile)
    (hstage : ∀ r, σ' r = .pending ∨ σ' r = .settled → σ r = .pending ∨ σ r = .settled) :
    Ledger s content (paths ++ [fileinfo.file_path]) t' σ' := by
  have hpushed : pushedChunks s t'.work = pushedChunks s t.work := by
    rw [pushedChunks, hgroups]
    rfl
  refine ⟨?_, fun f hf hown => ?_, hpushed ▸ h.nodup, fun r hr => ?_, fun f hf => ?_⟩
  · rw [List.map_append, List.sum_append, h.sizes, hgroups, hfailed, List.map_append, List.sum_append,
      List.map_singleton, List.map_singleton, List.sum_singleton, List.sum_singleton, hsize]
    omega
  · rw [hgroups] at hf
    rw [← h.whole f hf hown]
    exact congrArg List.sum (List.map_congr_left fun r _ => hlen r)
  · rw [hpushed]
    exact h.decided r (hstage r hr)
  · rw [hfailed, List.mem_append] at hf
    cases hf with
    | inl hf => exact h.failed f hf
    | inr hf =>
      obtain rfl := List.mem_singleton.mp hf
      exact herror

/-- A file has as many chunks as `chunk_file` cuts. -/
theorem length_appendChunks (fcs : List FingerChunk) (fileinfo : FileInfo ℕ) (t : DedupThread) :
    (appendChunks fcs fileinfo t).1.chunks.length = fileinfo.chunks.length + fcs.length := by
  induction fcs generalizing fileinfo t with
  | nil => rfl
  | cons fc fcs ih =>
    rw [appendChunks, ih, fileAppendFingerchunk, List.length_append, List.length_singleton,
      List.length_cons]
    omega

theorem length_cutFile (sha1 : Bytes → Fingerprint) (content : Bytes → Bytes)
    (hchunks : fileinfo.chunks = []) (t : DedupThread) :
    (cutFile sha1 content fileinfo t).1.chunks.length =
      (chunkFile t.rabin (content fileinfo.file_path)).1.length := by
  rw [cutFile]
  dsimp only
  rw [length_appendChunks, hchunks, List.length_nil, Nat.zero_add, length_fingerChunks]

/-- What `cutFile` does. -/
structure CutFile (sha1 : Bytes → Fingerprint) (content : Bytes → Bytes) (fileinfo : FileInfo ℕ)
    (t : DedupThread) (q : FileInfo ℕ × DedupThread) : Prop where
  chunks : q.1.chunks.map q.2.work.chunk =
    fingerChunks sha1 0 (chunkFile t.rabin (content fileinfo.file_path)).1
  rabin : q.2.rabin = (chunkFile t.rabin (content fileinfo.file_path)).2
  exbin : q.2.exbin = t.exbin
  cfl : q.2.cfl = t.cfl
  perfect : q.2.perfect = t.perfect
  failed : q.2.failed = t.failed
  fingers : q.2.work.fingers = t.work.fingers
  store : q.2.work.store = t.work.store

theorem cutFile_cut (clock : ℕ → ℤ) (h : Between sha1 s content ex₀ store₀ paths t σ)
    (hchunks : fileinfo.chunks = []) :
    CutFile sha1 content fileinfo t (cutFile sha1 content fileinfo t) := by
  obtain ⟨cut, hcut⟩ : ∃ cut, cut = chunkFile t.rabin (content fileinfo.file_path) := ⟨_, rfl⟩
  have hstart : Between sha1 s content ex₀ store₀ paths { t with rabin := cut.2 } σ :=
    ⟨h.life, h.unused, h.unmarked, ⟨h.bins.cache, h.bins.loaded, h.bins.unloaded⟩, h.policy,
      ⟨h.ledger.sizes, h.ledger.whole, h.ledger.nodup, h.ledger.decided, h.ledger.failed⟩⟩
  have hspec := appendChunks_spec clock (FirstLoad ex₀ store₀) fileinfo
    (fun _ => @mutex_fingerChunks sha1 0 cut.1 _) hstart
  have honly := appendChunks_only (fingerChunks sha1 0 cut.1) fileinfo { t with rabin := cut.2 }
  rw [cutFile, ← hcut]
  refine ⟨?_, honly.rabin.trans (congrArg Prod.snd hcut), honly.exbin, honly.cfl, honly.perfect,
    honly.failed, honly.fingers, honly.store⟩
  dsimp only
  rw [hspec.file, hchunks, List.nil_append, ← hcut]
  exact hspec.chunks

/-- A file that is cut into chunks. -/
theorem chunkDedup_between (h : Between sha1 s content ex₀ store₀ paths t σ)
    (hchunks : fileinfo.chunks = [])
    (hsize : fileinfo.file_size = (content fileinfo.file_path).length)
    (hnew : s.rewrite = .noRewrite → fileinfo.is_new = .newFile)
    (hcount : s.rewrite = .cflRewrite →
      (chunkFile t.rabin (content fileinfo.file_path)).1.length < 2 ^ 31)
    {q : Bool × FileInfo ℕ × DedupThread}
    (hrun : chunkDedup sha1 s clock content fileinfo t = some q) :
    ∃ σ', Moves sha1 s clock (FirstLoad ex₀ store₀) (t.work, σ) ((forward q).work, σ') ∧
      Between sha1 s content ex₀ store₀ (paths ++ [fileinfo.file_path]) (forward q) σ' ∧
      ∀ r, SamePlace ((cutFile sha1 content fileinfo t).2.work.chunk r) ((forward q).work.chunk r) := by
  obtain ⟨hcutmoves, hb, hcut, rs, hfile⟩ := cutFile_spec clock (FirstLoad ex₀ store₀) h hchunks
  have hlength := length_cutFile sha1 content hchunks t
  rw [chunkDedup] at hrun
  generalize cutFile sha1 content fileinfo t = p at hcutmoves hb hcut hfile hlength hrun ⊢
  obtain ⟨f, u⟩ := p
  dsimp only at hcutmoves hb hcut hfile hlength hrun
  have hpath : fileinfo.file_path = f.file_path := by rw [hfile]
  have hisnew : f.is_new = fileinfo.is_new := by rw [hfile]
  have hsize' : f.file_size = (content f.file_path).length := by
    rw [hfile]
    exact hsize
  have hnew' : s.rewrite = .noRewrite → f.is_new = .newFile := fun hs => hisnew.trans (hnew hs)
  have hown : ¬(s.rewrite = .noRewrite ∧ f.is_new = .dedupFile) := by
    rintro ⟨hs, hdup⟩
    simp [hnew' hs] at hdup
  have hcells : ownChunks s f = f.chunks := by rw [ownChunks, if_neg hown]
  obtain ⟨b, hload, rfl⟩ := Option.map_eq_some_iff.mp hrun
  rw [hcut.rep] at hload
  obtain ⟨hopen, hcache, hbin, hrep⟩ := hb.bins.openBin sha1 s clock hload
  have hpolicy : PolicyHolds sha1 s content ({ u with exbin := b.2 }.openBin b.1) σ :=
    hb.policy.congr rfl rfl rfl fun _ _ => rfl
  have hhand : AtHand sha1 (content f.file_path) f.chunks ({ u with exbin := b.2 }.openBin b.1).work σ :=
    ⟨hcut.hand.nodup, hcut.hand.fresh, hcut.hand.place⟩
  have hlife : Life (ownChunks s) ({ u with exbin := b.2 }.openBin b.1).work σ := hopen.life hb.life
  have hrow : InRow ({ u with exbin := b.2 }.openBin b.1).work 0 f.chunks :=
    hcut.row.samePlace fun _ _ => ⟨rfl, rfl, rfl⟩
  obtain ⟨σ', hmark⟩ := markDeplicateChunk_spec clock (FirstLoad ex₀ store₀) hlife hpolicy hhand hrow
    hnew' fun hs => hlength ▸ hcount hs
  generalize markDeplicateChunk s clock content f ({ u with exbin := b.2 }.openBin b.1) = m at hmark
  obtain ⟨ok, v⟩ := m
  have hmoves : Moves sha1 s clock (FirstLoad ex₀ store₀) (t.work, σ) (v.work, σ') :=
    (hcutmoves.trans hopen).trans hmark.moves
  have hlen : ∀ r, (v.work.chunk r).chunklen = (u.work.chunk r).chunklen := fun r => (hmark.place r).2.1
  have hexbin : v.exbin = b.2 := hmark.exbin
  have hnext : v.next = u.next := hmark.next
  have hgroups : groups v.work.log = groups u.work.log := hmark.groups
  have hkept : BinKept ex₀ store₀ (v.closeBin b.1) σ' :=
    .closeBin (hexbin ▸ hcache) (hexbin ▸ hbin) hrep
  have hunused : ∀ r, v.next ≤ r → σ' r = .fresh := by
    intro r hr
    rw [hnext] at hr
    have hfresh := hb.unused r hr
    have hnot : r ∉ f.chunks := fun hmem => absurd (hcut.numbered r hmem).2 (by omega)
    cases hmark.marked.others r hnot with
    | inl hsame => exact hsame.trans hfresh
    | inr hset => simp [hfresh] at hset
  rw [hpath]
  cases ok with
  | true =>
    have hpush : Move sha1 s clock (FirstLoad ex₀ store₀) (v.work, σ') (v.work.push f, σ') :=
      .push fun r hr => hmark.marked.done rfl r (hcells ▸ hr)
    have hall := hmoves.trans (.of_move hpush)
    refine ⟨σ', hall, ⟨hall.life h.life, hunused, fun r hr => ?_,
      ⟨hkept.cache, hkept.loaded, hkept.unloaded⟩, ?_, ?_⟩, fun r => ?_⟩
    · by_cases hmem : r ∈ f.chunks
      · have hdone := hmark.marked.done rfl r hmem
        simp [hr] at hdone
      · cases hmark.marked.others r hmem with
        | inl hsame => exact hb.unmarked r (hsame.symm.trans hr)
        | inr hset => simp [hset.2] at hr
    · exact hmark.policy.congr rfl rfl rfl fun r _ => congrFun (push_chunk v.work f) r
    · refine hb.ledger.push (v.closeBin b.1) hgroups hmark.failed hsize' (fun _ => ?_) hlen
        (hcells ▸ hcut.hand.nodup) (fun r hr hr' => ?_) fun r hr => ?_
      · rw [hsize', ← hcut.whole]
        exact congrArg List.sum (List.map_congr_left fun r _ => hlen r)
      · have hstage := hb.life.published r (mem_pushedChunks.mp hr)
        simp [hcut.hand.fresh r (hcells ▸ hr')] at hstage
      · rw [hcells]
        by_cases hmem : r ∈ f.chunks
        · exact .inl hmem
        · cases hmark.marked.others r hmem with
          | inl hsame => exact .inr (hsame ▸ hr)
          | inr hset => exact .inr (.inl hset.1)
    · have hplace := hmark.place r
      rwa [← push_chunk v.work f] at hplace
  | false =>
    refine ⟨σ', hmoves, ⟨hmoves.life h.life, hunused, fun r hr => ?_,
      ⟨hkept.cache, hkept.loaded, hkept.unloaded⟩, ?_, ?_⟩, hmark.place⟩
    · by_cases hmem : r ∈ f.chunks
      · have hdropped := hmark.marked.dropped rfl r hmem
        simp [hr] at hdropped
      · cases hmark.marked.others r hmem with
        | inl hsame => exact hb.unmarked r (hsame.symm.trans hr)
        | inr hset => simp [hset.2] at hr
    · exact hmark.policy.congr rfl rfl rfl fun _ _ => rfl
    · have hfailed : v.failed = u.failed := hmark.failed
      refine hb.ledger.fail hgroups ?_ hsize' hlen (hmark.error rfl) fun r hr => ?_
      · exact congrArg (· ++ [f]) hfailed
      · by_cases hmem : r ∈ f.chunks
        · have hdropped := hmark.marked.dropped rfl r hmem
          cases hr with
          | inl hr => simp [hr] at hdropped
          | inr hr => simp [hr] at hdropped
        · cases hmark.marked.others r hmem with
          | inl hsame => exact hsame ▸ hr
          | inr hset => exact .inl hset.1

-- ════════════════════════════════════════════════════════════════════════
-- Files that wait for the end of the stream
-- ════════════════════════════════════════════════════════════════════════

/-- The end of the stream reaches all chunks of the files that wait. -/
def ShortFiles (t : DedupThread) : Prop := ∀ f ∈ t.perfect.dedup_buf, f.chunks.length < 2 ^ 32

theorem appendChunks_path (fcs : List FingerChunk) (fileinfo : FileInfo ℕ) (t : DedupThread) :
    (appendChunks fcs fileinfo t).1.file_path = fileinfo.file_path := by
  induction fcs generalizing fileinfo t with
  | nil => rfl
  | cons fc fcs ih => exact ih _ _

theorem markDeplicateChunk_buffered (s : Settings) (clock : ℕ → ℤ) (content : Bytes → Bytes)
    (fileinfo : FileInfo ℕ) (t : DedupThread) :
    (markDeplicateChunk s clock content fileinfo t).2.perfect.dedup_buf ⊆
      t.perfect.dedup_buf ++ [fileinfo] := by
  have hleft : t.perfect.dedup_buf ⊆ t.perfect.dedup_buf ++ [fileinfo] := List.subset_append_left _ _
  rw [markDeplicateChunk]
  cases s.rewrite with
  | noRewrite => cases fileinfo.is_new <;> exact hleft
  | cflRewrite => exact hleft
  | cappingRewrite => exact hleft
  | perfectRewrite =>
    rw [perfectProcess]
    dsimp only
    split
    · exact fun _ hf => hf
    · exact hleft

theorem chunkDedup_short (hchunks : fileinfo.chunks = [])
    (hcount : FitsChunknum (content fileinfo.file_path)) {q : Bool × FileInfo ℕ × DedupThread}
    (hrun : chunkDedup sha1 s clock content fileinfo t = some q) (h : ShortFiles t) :
    ShortFiles (forward q) := by
  have hlength := length_cutFile sha1 content hchunks t
  have hperfect : (cutFile sha1 content fileinfo t).2.perfect = t.perfect :=
    (appendChunks_only _ _ _).perfect
  rw [chunkDedup] at hrun
  generalize cutFile sha1 content fileinfo t = p at hlength hperfect hrun
  obtain ⟨f, u⟩ := p
  obtain ⟨b, -, rfl⟩ := Option.map_eq_some_iff.mp hrun
  have hshort := hcount t.rabin
  intro g hg
  have hmem : g ∈ (markDeplicateChunk s clock content f
      ({ u with exbin := b.2 }.openBin b.1)).2.perfect.dedup_buf := by
    rw [forward] at hg
    split at hg <;> exact hg
  rcases List.mem_append.mp (markDeplicateChunk_buffered s clock content f _ hmem) with hold | hnew
  · exact h g (hperfect ▸ hold)
  · obtain rfl := List.mem_singleton.mp hnew
    dsimp only at hlength
    omega

theorem dedupItem_short {item : Bytes × Answer} (hcount : FitsChunknum (content item.1)) {t' : DedupThread}
    (hrun : dedupItem sha1 s clock content t item = some t') (h : ShortFiles t) : ShortFiles t' := by
  rw [dedupItem] at hrun
  cases hitem : item.2 with
  | newFile =>
    rw [hitem] at hrun
    obtain ⟨q, hq, rfl⟩ := Option.map_eq_some_iff.mp hrun
    have hempty : ({ queuedFile sha1 content item.1 with is_new := .newFile } : FileInfo ℕ).chunks = [] :=
      rfl
    exact chunkDedup_short hempty hcount hq h
  | dedupFile msgs =>
    rw [hitem] at hrun
    dsimp only at hrun
    have hfile := appendChunks_path (msgs.map receivedChunk)
      { queuedFile sha1 content item.1 with is_new := .dedupFile } t
    have hperfect := (appendChunks_only (msgs.map receivedChunk)
      { queuedFile sha1 content item.1 with is_new := .dedupFile } t).perfect
    generalize appendChunks (msgs.map receivedChunk)
      { queuedFile sha1 content item.1 with is_new := .dedupFile } t = p at hfile hperfect hrun
    have hkept : ShortFiles p.2 := fun f hf => h f (hperfect ▸ hf)
    split at hrun
    · obtain rfl := Option.some.inj hrun
      exact hkept
    · obtain ⟨q, hq, rfl⟩ := Option.map_eq_some_iff.mp hrun
      have hempty : ({ p.1 with chunks := [] } : FileInfo ℕ).chunks = [] := rfl
      refine chunkDedup_short hempty ?_ hq hkept
      rw [show ({ p.1 with chunks := [] } : FileInfo ℕ).file_path = item.1 from hfile]
      exact hcount

theorem dedupItems_short {stream : List (Bytes × Answer)}
    (hcount : ∀ item ∈ stream, FitsChunknum (content item.1)) {t' : DedupThread}
    (hrun : stream.foldlM (dedupItem sha1 s clock content) t = some t') (h : ShortFiles t) :
    ShortFiles t' := by
  induction stream generalizing t with
  | nil =>
    obtain rfl := Option.some.inj hrun
    exact h
  | cons item stream ih =>
    rw [List.foldlM_cons] at hrun
    obtain ⟨u, hu, hrest⟩ := Option.bind_eq_some_iff.mp hrun
    exact ih (fun i hi => hcount i (List.mem_cons_of_mem _ hi)) hrest
      (dedupItem_short (hcount item List.mem_cons_self) hu h)

-- ════════════════════════════════════════════════════════════════════════
-- A round
-- ════════════════════════════════════════════════════════════════════════

theorem mutex_receivedChunk (msgs : List Bytes) :
    ∀ fc ∈ msgs.map receivedChunk, fc.mutex = false := by
  intro fc hfc
  obtain ⟨msg, -, rfl⟩ := List.mem_map.mp hfc
  rfl

/-- A round of the thread. -/
theorem dedupItem_between (h : Between sha1 s content ex₀ store₀ paths t σ) {item : Bytes × Answer}
    (hcount : s.rewrite = .cflRewrite → FitsChunknum (content item.1))
    {t' : DedupThread} (hrun : dedupItem sha1 s clock content t item = some t') :
    ∃ σ', Moves sha1 s clock (FirstLoad ex₀ store₀) (t.work, σ) (t'.work, σ') ∧
      Between sha1 s content ex₀ store₀ (paths ++ [item.1]) t' σ' := by
  rw [dedupItem] at hrun
  cases hitem : item.2 with
  | newFile =>
    rw [hitem] at hrun
    obtain ⟨q, hq, rfl⟩ := Option.map_eq_some_iff.mp hrun
    obtain ⟨σ', hmoves, hb, -⟩ :=
      chunkDedup_between h rfl rfl (fun _ => rfl) (fun hs => hcount hs t.rabin) hq
    exact ⟨σ', hmoves, hb⟩
  | dedupFile msgs =>
    rw [hitem] at hrun
    dsimp only at hrun
    have hspec := appendChunks_spec clock (FirstLoad ex₀ store₀)
      { queuedFile sha1 content item.1 with is_new := .dedupFile } (mutex_receivedChunk msgs) h
    generalize appendChunks (msgs.map receivedChunk)
      { queuedFile sha1 content item.1 with is_new := .dedupFile } t = p at hspec hrun
    by_cases hs : s.rewrite = .noRewrite
    · rw [if_pos hs] at hrun
      obtain rfl := Option.some.inj hrun
      have hdup : p.1.is_new = .dedupFile := by rw [hspec.file]
      have hcells : ownChunks s p.1 = [] := by rw [ownChunks, if_pos ⟨hs, hdup⟩]
      have hpush : Move sha1 s clock (FirstLoad ex₀ store₀) (p.2.work, σ) (p.2.work.push p.1, σ) :=
        .push (by simp [hcells])
      have hall := hspec.moves.trans (.of_move hpush)
      have hb := hspec.between
      refine ⟨σ, hall, hall.life h.life, hb.unused, hb.unmarked,
        ⟨hb.bins.cache, hb.bins.loaded, hb.bins.unloaded⟩, ?_, ?_⟩
      · exact hb.policy.congr rfl rfl rfl fun r _ => congrFun (push_chunk _ _) r
      · have hpath : p.1.file_path = item.1 := by
          rw [hspec.file]
          rfl
        have hsize : p.1.file_size = (content p.1.file_path).length := by
          rw [hpath, hspec.file]
          rfl
        rw [← hpath]
        exact hb.ledger.push p.2 rfl rfl hsize (fun hown => absurd ⟨hs, hdup⟩ hown) (fun _ => rfl)
          (by simp [hcells]) (by simp [hcells]) fun r hr => .inr hr
    · rw [if_neg hs] at hrun
      obtain ⟨q, hq, rfl⟩ := Option.map_eq_some_iff.mp hrun
      have hpath : p.1.file_path = item.1 := by
        rw [hspec.file]
        rfl
      have hsize : p.1.file_size = (content p.1.file_path).length := by
        rw [hpath, hspec.file]
        rfl
      have hchunks : ({ p.1 with chunks := [] } : FileInfo ℕ).chunks = [] := rfl
      obtain ⟨σ', hmoves, hb, -⟩ := chunkDedup_between
        hspec.between hchunks hsize (fun hno => absurd hno hs)
        (fun hs => by dsimp only; rw [hpath]; exact hcount hs _) hq
      refine ⟨σ', hspec.moves.trans hmoves, ?_⟩
      rw [← hpath]
      exact hb

-- ════════════════════════════════════════════════════════════════════════
-- The stream
-- ════════════════════════════════════════════════════════════════════════

theorem dedupItems_between {stream : List (Bytes × Answer)}
    (h : Between sha1 s content ex₀ store₀ paths t σ)
    (hcount : s.rewrite = .cflRewrite → ∀ item ∈ stream, FitsChunknum (content item.1)) {t' : DedupThread}
    (hrun : stream.foldlM (dedupItem sha1 s clock content) t = some t') :
    ∃ σ', Moves sha1 s clock (FirstLoad ex₀ store₀) (t.work, σ) (t'.work, σ') ∧
      Between sha1 s content ex₀ store₀ (paths ++ stream.map Prod.fst) t' σ' := by
  induction stream generalizing t σ paths with
  | nil =>
    obtain rfl := Option.some.inj hrun
    refine ⟨σ, Moves.refl _ _, ?_⟩
    rw [List.map_nil, List.append_nil]
    exact h
  | cons item stream ih =>
    rw [List.foldlM_cons] at hrun
    obtain ⟨u, hu, hrest⟩ := Option.bind_eq_some_iff.mp hrun
    obtain ⟨σ₁, hfirst, hb⟩ := dedupItem_between h (fun hs => hcount hs item List.mem_cons_self) hu
    obtain ⟨σ', hmoves, hb'⟩ := ih hb (fun hs i hi => hcount hs i (List.mem_cons_of_mem _ hi)) hrest
    refine ⟨σ', hfirst.trans hmoves, ?_⟩
    rw [List.map_cons, ← List.singleton_append, ← List.append_assoc]
    exact hb'

/-- What holds after the stream: nothing waits. -/
structure Ended (s : Settings) (content : Bytes → Bytes) (ex₀ : ExtremeBinning) (store₀ : Store)
    (paths : List Bytes) (t : DedupThread) (σ : ℕ → Stage) : Prop where
  life : Life (ownChunks s) t.work σ
  decided : ∀ r, σ r ≠ .pending
  bins : BinKept ex₀ store₀ t σ
  ledger : Ledger s content paths t σ

/-- A flush at the end of the stream. -/
theorem Between.finish (h : Between sha1 s content ex₀ store₀ paths t σ) {t' : DedupThread} {bin : Bin}
    (hbin : t.exbin.bin_cache.lookup zeroFinger = some bin)
    (hsteps : Steps sha1 clock noFile (t.work, σ) (t'.work, σ'))
    (hw : Waiting sha1 content [] t'.work σ') (hexbin : t'.exbin = t.exbin)
    (hfailed : t'.failed = t.failed) :
    Moves sha1 s clock Loads (t.work, σ) ((t'.closeBin bin).work, σ') ∧
      Ended s content ex₀ store₀ paths (t'.closeBin bin) σ' := by
  refine ⟨hsteps.moves, hsteps.life h.life, fun r hr => by simpa using (hw.pending r).mp hr,
    .closeBin (hexbin ▸ h.bins.cache) (hexbin ▸ hbin) (h.bins.loaded bin hbin).2, ?_⟩
  refine h.ledger.congr hsteps.groups hfailed (fun f _ _ r _ => (hsteps.samePlace r).2.1) fun r hr => ?_
  cases hsteps.stage (r := r) id with
  | inl hsame => exact hsame.1 ▸ hr
  | inr hset => exact .inl hset.1

theorem streamEnd_moves (h : Between sha1 s content ex₀ store₀ paths t σ)
    (hshort : s.rewrite = .perfectRewrite → ShortFiles t) {t' : DedupThread}
    (hrun : streamEnd s clock content t = some t') :
    ∃ σ', Moves sha1 s clock (FirstLoad ex₀ store₀) (t.work, σ) (t'.work, σ') ∧
      Ended s content ex₀ store₀ paths t' σ' := by
  have hstop : (∀ r, σ r ≠ .pending) → t' = t →
      ∃ σ', Moves sha1 s clock (FirstLoad ex₀ store₀) (t.work, σ) (t'.work, σ') ∧
        Ended s content ex₀ store₀ paths t' σ' := by
    rintro hnone rfl
    exact ⟨σ, Moves.refl _ _, h.life, hnone, h.bins, h.ledger⟩
  have hopen : ∀ bin, reloadBin t = some bin → (t.openBin bin).work = t.work := by
    intro bin hbin
    rw [DedupThread.openBin, (h.bins.loaded bin hbin).1]
  have hpolicy := h.policy
  rw [PolicyHolds] at hpolicy
  rw [streamEnd] at hrun
  cases hs : s.rewrite with
  | noRewrite =>
    rw [hs] at hrun hpolicy
    exact hstop (fun r hr => by simpa using (hpolicy.pending r).mp hr) (Option.some.inj hrun).symm
  | cflRewrite =>
    rw [hs] at hrun hpolicy
    dsimp only at hrun hpolicy
    split at hrun
    · next hnil =>
      refine hstop (fun r hr => ?_) (Option.some.inj hrun).symm
      have hmem := (hpolicy.waiting.pending r).mp hr
      simp [Cfl.buffer, hnil] at hmem
    · obtain ⟨bin, hbin, rfl⟩ := Option.map_eq_some_iff.mp hrun
      rw [hopen bin hbin]
      obtain ⟨σ', hsteps, hw⟩ := cflEnd_steps (s := s) clock h.life hpolicy
      exact ⟨σ', h.finish hbin hsteps hw rfl rfl⟩
  | perfectRewrite =>
    rw [hs] at hrun hpolicy
    dsimp only at hrun hpolicy
    split at hrun
    · next hnil =>
      refine hstop (fun r hr => ?_) (Option.some.inj hrun).symm
      have hmem := (hpolicy.waiting.pending r).mp hr
      simp [Perfect.buffer, hnil] at hmem
    · obtain ⟨bin, hbin, rfl⟩ := Option.map_eq_some_iff.mp hrun
      rw [hopen bin hbin]
      obtain ⟨-, σ', hsteps, hw⟩ := perfectFlush_steps (s := s) clock h.life (hshort hs) hpolicy
      exact ⟨σ', h.finish hbin hsteps hw rfl rfl⟩
  | cappingRewrite =>
    rw [hs] at hrun hpolicy
    dsimp only at hrun hpolicy
    obtain ⟨bin, hbin, rfl⟩ := Option.map_eq_some_iff.mp hrun
    rw [hopen bin hbin]
    obtain ⟨-, -, -, σ', hsteps, hw⟩ := rewrite_steps (s := s) clock h.life hpolicy.1 hpolicy.2
    exact ⟨σ', h.finish hbin hsteps hw rfl rfl⟩

/-- Before the first file. -/
theorem between_start (sha1 : Bytes → Fingerprint) (s : Settings) (content : Bytes → Bytes)
    (clock : ℕ → ℤ) (disk : Disk) (names : Names) (rabin : Rabin) (u : ℤ) :
    Between sha1 s content (dedupStart clock disk names rabin u).exbin
      (dedupStart clock disk names rabin u).work.store [] (dedupStart clock disk names rabin u)
      fun _ => .fresh := by
  have hcache : (dedupStart clock disk names rabin u).exbin.bin_cache = htableInit 100 := rfl
  have hnone : ∀ buf : List (ℕ × Bytes), buf = [] →
      Waiting sha1 content buf (dedupStart clock disk names rabin u).work fun _ => .fresh := by
    rintro buf rfl
    exact ⟨List.nodup_nil, by simp, by simp⟩
  refine ⟨life_start (HTable.init_wf 0).chains _, fun _ _ => rfl, by simp, ⟨?_, ?_, ?_⟩, ?_,
    rfl, by simp [dedupStart], by simp [pushedChunks, dedupStart], by simp, by simp [dedupStart]⟩
  · rw [hcache]
    exact HTable.init_wf 100
  · rw [hcache]
    simp
  · exact fun _ => ⟨rfl, rfl, fun _ => rfl⟩
  · rw [PolicyHolds]
    split
    · exact hnone [] rfl
    · exact ⟨hnone _ rfl, by simp [Cfl.buffer, dedupStart, cflInit]⟩
    · exact ⟨hnone _ rfl, HTable.init_wf 200, by simp [Perfect.buffer, dedupStart, perfectRewriteInit]⟩
    · exact ⟨HTable.init_wf 50, hnone _ rfl⟩

/-- The whole stream, from the start of the thread. -/
theorem chunkDedupModule_moves {disk : Disk} {names : Names} {rabin : Rabin} {u : ℤ}
    {stream : List (Bytes × Answer)} {t' : DedupThread}
    (hcount : s.rewrite ≠ .noRewrite → ∀ item ∈ stream, FitsChunknum (content item.1))
    (hrun : chunkDedupModule sha1 s clock content stream (dedupStart clock disk names rabin u) = some t') :
    ∃ σ', Moves sha1 s clock (FirstLoad (dedupStart clock disk names rabin u).exbin
        (dedupStart clock disk names rabin u).work.store)
        ((dedupStart clock disk names rabin u).work, fun _ => .fresh) (t'.work, σ') ∧
      Ended s content (dedupStart clock disk names rabin u).exbin
        (dedupStart clock disk names rabin u).work.store (stream.map Prod.fst) t' σ' := by
  obtain ⟨v, hv, hend⟩ := Option.bind_eq_some_iff.mp hrun
  obtain ⟨σ₁, hfirst, hb⟩ := dedupItems_between
    (between_start sha1 s content clock disk names rabin u) (fun hs => hcount (by simp [hs])) hv
  have hshort : s.rewrite = .perfectRewrite → ShortFiles v := by
    intro hs
    refine dedupItems_short (hcount (by simp [hs])) hv ?_
    exact fun f hf => absurd hf (List.not_mem_nil)
  obtain ⟨σ', hmoves, hended⟩ := streamEnd_moves hb hshort hend
  exact ⟨σ', hfirst.trans hmoves, hended⟩

end TCBackup.Client
